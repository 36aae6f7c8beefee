import Primecoin.Keys.KeyStore
import Primecoin.Control.Along

/-!
# Histories of a key store

What a `CCryptoKeyStore` has after any calls of `AddKey`, `EncryptKeys`, `Lock` and `Unlock`. Each
entry of the maps belongs to a key that was added, and each of these has an entry. Encrypting
replaces the entries one by one, all with the same master key.
-/

namespace Primecoin

open Codec SortedMap ECPoint List CCryptoKeyStore Except

/-- A secret that is decrypted with another master key does not belong to the public key. -/
def KeyStoreContext.Separates (ctx : KeyStoreContext) : Prop :=
  ∀ (vMasterKey vMasterKey' vchCryptedSecret vchSecret : Bytes) (n : ℕ) (nIV : UInt256),
    n < 256 ^ 32 → ctx.encryptSecret vMasterKey (beBytes 32 n) nIV = some vchCryptedSecret →
      ctx.decryptSecret vMasterKey' vchCryptedSecret nIV = some vchSecret →
        vchSecret.length = 32 → ctx.lib.mulG (beNat vchSecret) = ctx.lib.mulG n →
          vMasterKey' = vMasterKey

open KeyStoreContext

theorem PointForm.octets_ofFlag_length (f : Bool) (p : ECPoint) :
    octets (.ofFlag (decide ((octets (.ofFlag f) p).length = 33))) p = octets (.ofFlag f) p := by
  rw [octets_eq_iff]
  by_cases hp : p = none
  · exact Or.inr hp
  · rw [length_octets_ofFlag hp]
    exact Or.inl rfl

namespace CKey

variable {lib : ECLibrary} {key : CKey} {n : ℕ}

def pubBytes (key : CKey) : Bytes :=
  match key.pkey.pub with
  | none => []
  | some p => octets key.pkey.form p

def secretBytes (key : CKey) : Bytes :=
  match key.pkey.priv with
  | none => []
  | some n => beBytes 32 n

theorem Has.pubBytes_eq (h : key.Has lib n) : key.pubBytes = octets key.pkey.form (lib.mulG n) := by
  rw [pubBytes, h.pub]

theorem Has.secretBytes_eq (h : key.Has lib n) : key.secretBytes = beBytes 32 n := by
  rw [secretBytes, h.priv]

/-- The compression flag says how the public key is written. -/
def Correct (lib : ECLibrary) (key : CKey) : Prop :=
  key.pkey.form = .ofFlag key.fCompressedPubKey ∧ ∃ n, key.Has lib n

end CKey

namespace CCryptoKeyStore

variable {ctx : KeyStoreContext} {store store' : CCryptoKeyStore} {key : CKey} {keys : Set CKey}
  {entry : Bytes × Bool} {vMasterKey vMasterKeyIn : Bytes}

/-! ### The two modes -/

/-- An encrypted store has no plain keys, and a plain one no master key and no encrypted keys. -/
structure Modes (store : CCryptoKeyStore) : Prop where
  mapKeys_eq : store.fUseCrypto = true → store.mapKeys.toList = []
  vMasterKey_eq : store.fUseCrypto = false → store.vMasterKey = []
  mapCryptedKeys_eq : store.fUseCrypto = false → store.mapCryptedKeys.toList = []
  length_secret : ∀ entry ∈ store.mapKeys.toList, entry.2.1.length = 32

theorem setCrypted_eq_true (h : store.setCrypted = (true, store')) :
    store' = { store with fUseCrypto := true } ∧
      (store.fUseCrypto = false → store.mapKeys.toList = []) := by
  rw [setCrypted] at h
  split_ifs at h with hcrypto hkeys
  · cases h
    refine ⟨?_, fun hplain => absurd (hplain.symm.trans hcrypto) Bool.false_ne_true⟩
    rw [← hcrypto]
  · cases h
  · cases h
    exact ⟨rfl, fun _ => not_not.mp hkeys⟩

theorem setCrypted_eq_false (h : store.setCrypted = (false, store')) : store' = store := by
  rw [setCrypted] at h
  split_ifs at h <;> cases h
  rfl

theorem Modes.setCrypted (h : store.Modes) (hset : store.setCrypted = (true, store')) :
    store'.Modes ∧ store'.fUseCrypto = true := by
  obtain ⟨rfl, hkeys⟩ := setCrypted_eq_true hset
  refine ⟨⟨fun _ => ?_, fun hplain => (by cases hplain), fun hplain => (by cases hplain),
    h.length_secret⟩, rfl⟩
  cases hcrypto : store.fUseCrypto with
  | true => exact h.mapKeys_eq hcrypto
  | false => exact hkeys hcrypto

theorem Modes.set_vMasterKey (h : store.Modes) (hcrypto : store.fUseCrypto = true)
    (vMasterKey : Bytes) : { store with vMasterKey := vMasterKey }.Modes := by
  refine ⟨h.mapKeys_eq, fun hplain => ?_, h.mapCryptedKeys_eq, h.length_secret⟩
  exact absurd (hplain.symm.trans hcrypto) Bool.false_ne_true

theorem addKey_cases (ctx : KeyStoreContext) (key : CKey) (store : CCryptoKeyStore) :
    ((store.addKey ctx key).1 ≠ .ok true ∧ (store.addKey ctx key).2 = store) ∨
    (store.fUseCrypto = false ∧ ∃ id entry, basicEntry ctx key = .ok (id, entry) ∧
      store.addKey ctx key = (.ok true, { store with mapKeys := store.mapKeys.insert id entry })) ∨
    (store.fUseCrypto = true ∧ store.isLocked = false ∧ ∃ vchPubKey vchCryptedSecret,
      encryptKey ctx store.vMasterKey key = .ok (some (vchPubKey, vchCryptedSecret)) ∧
      store.addKey ctx key = (.ok true, { store with
        mapCryptedKeys := store.mapCryptedKeys.insert (ctx.hash160 vchPubKey)
          (vchPubKey, vchCryptedSecret) })) := by
  rw [addKey]
  split_ifs with hplain hlocked
  · cases hentry : basicEntry ctx key with
    | error e => exact Or.inl ⟨fun h => (by cases h), rfl⟩
    | ok entry => exact Or.inr (Or.inl ⟨by simpa using hplain, _, _, rfl, rfl⟩)
  · exact Or.inl ⟨fun h => (by cases h), rfl⟩
  · have hcrypto : store.fUseCrypto = true := by simpa using hplain
    rcases hencrypt : encryptKey ctx store.vMasterKey key with e | _ | ⟨vchPubKey, vchCryptedSecret⟩
    · exact Or.inl ⟨fun h => (by cases h), rfl⟩
    · exact Or.inl ⟨fun h => (by cases h), rfl⟩
    · rw [addEncrypted_eq hcrypto]
      exact Or.inr (Or.inr ⟨hcrypto, by simpa using hlocked, _, _, rfl, rfl⟩)

theorem length_of_basicEntry {id : CKeyID}
    (h : basicEntry ctx key = .ok (id, entry)) : entry.1.length = 32 := by
  rw [basicEntry] at h
  cases hsecret : key.getSecret with
  | error e =>
    rw [hsecret] at h
    cases h
  | ok secret =>
    cases hpub : key.getPubKey ctx.lib with
    | error e =>
      rw [hsecret, hpub] at h
      cases h
    | ok vchPubKey =>
      rw [hsecret, hpub] at h
      cases h
      rw [CKey.getSecret] at hsecret
      split at hsecret
      · cases hsecret
      · split_ifs at hsecret
        cases hsecret
        exact length_beBytes 32 _

/-! ### Encrypting all keys -/

def entryKey (ctx : KeyStoreContext) (entry : Bytes × Bool) : CKey :=
  (CKey.new.setSecret ctx.lib entry.1 entry.2).2

theorem entryKey_eq (h : entry.1.length = 32) :
    entryKey ctx entry = ⟨⟨some (beNat entry.1), some (ctx.lib.mulG (beNat entry.1)),
      .ofFlag entry.2⟩, true, entry.2⟩ := by
  rw [entryKey, CKey.setSecret_eq h]
  simp only [CKey.new, Bool.or_false]

theorem has_entryKey (h : entry.1.length = 32) :
    (entryKey ctx entry).Has ctx.lib (beNat entry.1) := by
  rw [entryKey_eq h]
  exact ⟨beNat_lt h, rfl, rfl⟩

abbrev keyId (ctx : KeyStoreContext) (key : CKey) : CKeyID := ctx.hash160 key.pubBytes

def PlainEntry (ctx : KeyStoreContext) (key : CKey) (entry : Bytes × Bool) : Prop :=
  entry.1 = key.secretBytes ∧
    octets (.ofFlag entry.2) (ctx.lib.mulG (beNat key.secretBytes)) = key.pubBytes

/-- The entry has the public key and the secret encrypted with the master key. -/
def CryptedEntry (ctx : KeyStoreContext) (vMasterKey : Bytes) (key : CKey)
    (entry : Bytes × Bytes) : Prop :=
  entry.1 = key.pubBytes ∧
    ctx.encryptSecret vMasterKey key.secretBytes (ctx.hash key.pubBytes) = some entry.2

theorem cryptedEntry_of_encryptKey {n : ℕ} (hkey : key.Has ctx.lib n)
    {entry : Bytes × Bytes} (h : encryptKey ctx vMasterKey key = .ok (some entry)) :
    CryptedEntry ctx vMasterKey key entry := by
  rw [encryptKey_eq hkey, ok.injEq, Option.map_eq_some_iff] at h
  obtain ⟨vchCryptedSecret, hencrypt, rfl⟩ := h
  rw [CryptedEntry, hkey.pubBytes_eq, hkey.secretBytes_eq]
  exact ⟨rfl, hencrypt⟩

theorem encryptEntries_spec (store : CCryptoKeyStore) {entries : List (CKeyID × Bytes × Bool)}
    (hlength : ∀ entry ∈ entries, entry.2.1.length = 32)
    (hencrypts : ∀ entry ∈ entries, encryptKey ctx vMasterKeyIn (entryKey ctx entry.2) ≠ .ok none)
    (hcrypto : store.fUseCrypto = true)
    (htracks : store.mapCryptedKeys.Tracks (keyId ctx) keys (CryptedEntry ctx vMasterKeyIn)) :
    ∃ mapCryptedKeys, encryptEntries ctx vMasterKeyIn entries store =
        (.ok true, { store with mapCryptedKeys := mapCryptedKeys }) ∧
      mapCryptedKeys.Tracks (keyId ctx)
        ({key | ∃ entry ∈ entries, entryKey ctx entry.2 = key} ∪ keys)
        (CryptedEntry ctx vMasterKeyIn) := by
  induction entries generalizing store keys with
  | nil =>
    refine ⟨store.mapCryptedKeys, rfl, ?_⟩
    simpa using htracks
  | cons first entries ih =>
    obtain ⟨id, entry⟩ := first
    have hsecret : entry.1.length = 32 := hlength _ (mem_cons_self ..)
    have hkey : (entryKey ctx entry).Has ctx.lib (beNat entry.1) := has_entryKey hsecret
    have hset : CKey.new.setSecret ctx.lib entry.1 entry.2 = (.ok true, entryKey ctx entry) := by
      rw [entryKey, CKey.setSecret_eq hsecret]
    have hfirst := hencrypts _ (mem_cons_self ..)
    rw [encryptEntries, hset]
    dsimp only at hfirst ⊢
    rcases hencrypt : encryptKey ctx vMasterKeyIn (entryKey ctx entry) with e | _ | crypted
    · rw [encryptKey_eq hkey] at hencrypt
      cases hencrypt
    · exact absurd hencrypt hfirst
    · have hcrypted := cryptedEntry_of_encryptKey hkey hencrypt
      obtain ⟨mapCryptedKeys, hrest, htracks'⟩ := ih { store with
          mapCryptedKeys := store.mapCryptedKeys.insert (keyId ctx (entryKey ctx entry)) crypted }
        (fun e he => hlength e (mem_cons_of_mem _ he))
        (fun e he => hencrypts e (mem_cons_of_mem _ he)) hcrypto (htracks.insert hcrypted)
      rw [addEncrypted_eq hcrypto, hcrypted.1]
      refine ⟨mapCryptedKeys, hrest, ?_⟩
      have hkeys : {key | ∃ e ∈ (id, entry) :: entries, entryKey ctx e.2 = key} ∪ keys =
          {key | ∃ e ∈ entries, entryKey ctx e.2 = key} ∪ ({entryKey ctx entry} ∪ keys) := by
        ext key
        simp only [mem_cons, Set.mem_union, Set.mem_ofPred_eq, exists_eq_or_imp,
          Set.mem_singleton_iff, eq_comm (a := key)]
        exact or_assoc.trans or_left_comm
      rw [hkeys]
      exact htracks'

theorem encryptKeys_of_crypted (hcrypto : store.fUseCrypto = true) (vMasterKeyIn : Bytes) :
    store.encryptKeys ctx vMasterKeyIn = (.ok false, store) := by
  rw [encryptKeys, if_pos (Or.inr hcrypto)]

theorem encryptKeys_spec (hmodes : store.Modes) (hplain : store.fUseCrypto = false)
    (hencrypts : ∀ entry ∈ store.mapKeys.toList,
      encryptKey ctx vMasterKeyIn (entryKey ctx entry.2) ≠ .ok none) :
    ∃ mapCryptedKeys, store.encryptKeys ctx vMasterKeyIn =
        (.ok true, ⟨.empty, mapCryptedKeys, store.vMasterKey, true⟩) ∧
      mapCryptedKeys.Tracks (keyId ctx)
        {key | ∃ entry ∈ store.mapKeys.toList, entryKey ctx entry.2 = key}
        (CryptedEntry ctx vMasterKeyIn) := by
  have hnil := hmodes.mapCryptedKeys_eq hplain
  obtain ⟨mapCryptedKeys, heq, htracks⟩ := encryptEntries_spec { store with fUseCrypto := true }
    hmodes.length_secret hencrypts rfl (tracks_of_toList_eq_nil hnil)
  rw [Set.union_empty] at htracks
  refine ⟨mapCryptedKeys, ?_, htracks⟩
  rw [encryptKeys, if_neg (by rw [hnil, hplain]; simp), heq]

/-! ### The keys of the store -/

/-- The entries are those of the keys. In an encrypted store they are made with one master key,
which is the one in memory if there is one. -/
structure Holds (ctx : KeyStoreContext) (store : CCryptoKeyStore) (keys : Set CKey) : Prop where
  plain : store.fUseCrypto = false → store.mapKeys.Tracks (keyId ctx) keys (PlainEntry ctx)
  crypted : store.fUseCrypto = true → ∃ vMasterKey,
    (keys = ∅ ∨ store.vMasterKey = [] ∨ store.vMasterKey = vMasterKey) ∧
      store.mapCryptedKeys.Tracks (keyId ctx) keys (CryptedEntry ctx vMasterKey)

theorem Holds.tracks_vMasterKey (h : store.Holds ctx keys) (hcrypto : store.fUseCrypto = true)
    (hunlocked : store.vMasterKey ≠ []) :
    store.mapCryptedKeys.Tracks (keyId ctx) keys (CryptedEntry ctx store.vMasterKey) := by
  obtain ⟨vMasterKey, rfl | hlocked | rfl, htracks⟩ := h.crypted hcrypto
  · exact htracks.transfer (fun b hb => absurd hb (Set.notMem_empty b))
      (fun c hc => absurd hc (Set.notMem_empty c))
  · exact absurd hlocked hunlocked
  · exact htracks

theorem plainEntry_of_correct (hkey : key.Correct ctx.lib) {n : ℕ} (hhas : key.Has ctx.lib n) :
    PlainEntry ctx key (beBytes 32 n, key.fCompressedPubKey) := by
  refine ⟨hhas.secretBytes_eq.symm, ?_⟩
  rw [hhas.secretBytes_eq, beNat_beBytes hhas.lt, hhas.pubBytes_eq, hkey.1]

theorem Holds.addKey (h : store.Holds ctx keys) (hkey : key.Correct ctx.lib)
    (hadd : store.addKey ctx key = (.ok true, store')) : store'.Holds ctx ({key} ∪ keys) := by
  obtain ⟨-, n, hhas⟩ := id hkey
  rcases addKey_cases ctx key store with ⟨hne, -⟩ | ⟨hplain, id, entry, hentry, heq⟩ |
    ⟨hcrypto, hlocked, vchPubKey, vchCryptedSecret, hencrypt, heq⟩
  · exact absurd (congrArg Prod.fst hadd) hne
  · rw [hadd, Prod.mk.injEq] at heq
    obtain ⟨-, rfl⟩ := heq
    rw [basicEntry_eq hhas, ← hhas.pubBytes_eq] at hentry
    cases hentry
    refine ⟨fun _ => (h.plain hplain).insert (plainEntry_of_correct hkey hhas), fun hcrypto => ?_⟩
    exact absurd (hplain.symm.trans hcrypto) Bool.false_ne_true
  · rw [hadd, Prod.mk.injEq] at heq
    obtain ⟨-, rfl⟩ := heq
    have hentry := cryptedEntry_of_encryptKey hhas hencrypt
    have hunlocked : store.vMasterKey ≠ [] := by
      rw [isLocked, hcrypto, Bool.true_and] at hlocked
      exact fun hnil => absurd (hnil ▸ hlocked) (by decide)
    have hinsert := (h.tracks_vMasterKey hcrypto hunlocked).insert hentry
    rw [keyId, ← hentry.1] at hinsert
    exact ⟨fun hplain => absurd (hplain.symm.trans hcrypto) Bool.false_ne_true,
      fun _ => ⟨store.vMasterKey, Or.inr (Or.inr rfl), hinsert⟩⟩

theorem Holds.setCrypted (h : store.Holds ctx keys) (hmodes : store.Modes)
    (hset : store.setCrypted = (true, store')) : store'.Holds ctx keys := by
  obtain ⟨rfl, hkeys⟩ := setCrypted_eq_true hset
  refine ⟨fun hplain => (by cases hplain), fun _ => ?_⟩
  cases hcrypto : store.fUseCrypto with
  | true => exact h.crypted hcrypto
  | false =>
    have hempty := (h.plain hcrypto).eq_empty (hkeys hcrypto)
    rw [hempty]
    exact ⟨[], Or.inl rfl, tracks_of_toList_eq_nil (hmodes.mapCryptedKeys_eq hcrypto)⟩

theorem Holds.encryptKeys (h : store.Holds ctx keys) (hkeys : ∀ key ∈ keys, key.Correct ctx.lib)
    (hmodes : store.Modes) (hplain : store.fUseCrypto = false)
    (hencrypts : ∀ entry ∈ store.mapKeys.toList,
      encryptKey ctx vMasterKeyIn (entryKey ctx entry.2) ≠ .ok none) :
    (store.encryptKeys ctx vMasterKeyIn).2.Holds ctx keys := by
  obtain ⟨mapCryptedKeys, heq, htracks⟩ := encryptKeys_spec hmodes hplain hencrypts
  rw [heq]
  refine ⟨fun hplain => (by cases hplain), fun _ => ⟨vMasterKeyIn,
    Or.inr (Or.inl (hmodes.vMasterKey_eq hplain)), ?_⟩⟩
  -- the key made from an entry is the one the entry was made for
  have hentry : ∀ entry ∈ store.mapKeys.toList, ∃ key ∈ keys, keyId ctx key = entry.1 ∧
      (entryKey ctx entry.2).pubBytes = key.pubBytes ∧
      (entryKey ctx entry.2).secretBytes = key.secretBytes := by
    intro entry hmem
    obtain ⟨key, hkey, hid, hsecret, hpub⟩ :=
      (h.plain hplain).1 _ _ (get?_eq_some_iff.mpr hmem)
    obtain ⟨-, n, hhas⟩ := hkeys key hkey
    have hlength := hmodes.length_secret entry hmem
    refine ⟨key, hkey, hid, ?_, ?_⟩
    · rw [← hpub, ← hsecret, entryKey_eq hlength]
      rfl
    · rw [(has_entryKey hlength).secretBytes_eq, hsecret, hhas.secretBytes_eq,
        beNat_beBytes hhas.lt]
  refine htracks.transfer ?_ fun key hkey => ?_
  · rintro _ ⟨entry, hmem, rfl⟩
    obtain ⟨key, hkey, -, hpub, hsecret⟩ := hentry entry hmem
    refine ⟨key, hkey, by rw [keyId, keyId, hpub], fun v hv => ?_⟩
    rwa [CryptedEntry, hpub, hsecret] at hv
  · obtain ⟨v, hget⟩ := (h.plain hplain).2 key hkey
    have hmem := get?_eq_some_iff.mp hget
    obtain ⟨key', -, hid, hpub, -⟩ := hentry _ hmem
    refine ⟨_, ⟨_, hmem, rfl⟩, ?_⟩
    rw [keyId, hpub]
    exact hid

/-! ### Unlocking -/

theorem opens_iff (hsep : ctx.Separates) (hkey : key.Correct ctx.lib)
    {entry : Bytes × Bytes} (hentry : CryptedEntry ctx vMasterKey key entry)
    (vMasterKeyIn : Bytes) :
    opens ctx vMasterKeyIn entry.1 entry.2 = .ok true ↔ vMasterKeyIn = vMasterKey := by
  obtain ⟨hform, n, hhas⟩ := hkey
  obtain ⟨hpub, hencrypt⟩ := hentry
  have hoctets : key.pubBytes = octets (.ofFlag key.fCompressedPubKey) (ctx.lib.mulG n) := by
    rw [hhas.pubBytes_eq, hform]
  rw [hhas.secretBytes_eq] at hencrypt
  rw [opens, hpub]
  constructor
  · intro h
    cases hdecrypt : ctx.decryptSecret vMasterKeyIn entry.2 (ctx.hash key.pubBytes) with
    | none =>
      rw [hdecrypt] at h
      cases h
    | some vchSecret =>
      rw [hdecrypt] at h
      dsimp only at h
      split_ifs at h with hlength
      · cases h
      · have hlength := not_not.mp hlength
        rw [CKey.setSecret_eq hlength] at h
        dsimp only at h
        rw [CKey.getPubKey_of_pub rfl] at h
        have heq : octets _ (ctx.lib.mulG (beNat vchSecret)) = key.pubBytes :=
          beq_iff_eq.mp (ok.inj h)
        refine hsep _ _ _ _ _ _ hhas.lt hencrypt hdecrypt hlength ?_
        rw [hoctets] at heq
        exact ctx.lib.mulG_eq_of_octets_eq heq
  · rintro rfl
    rw [decryptSecret_encryptSecret hencrypt]
    dsimp only
    rw [if_neg (not_not.mpr (length_beBytes 32 n)), hoctets, CKey.setSecret_setPubKey _ hhas.lt]
    simp only [CKey.getPubKey, ctx.lib.i2oECPublicKey_eq, CKey.new, Bool.or_false,
      PointForm.octets_ofFlag_length]
    exact congrArg ok (beq_self_eq_true _)

theorem unlock_iff (hsep : ctx.Separates) (hkeys : ∀ key ∈ keys, key.Correct ctx.lib)
    (hcrypto : store.fUseCrypto = true)
    (htracks : store.mapCryptedKeys.Tracks (keyId ctx) keys (CryptedEntry ctx vMasterKey))
    (hne : store.mapCryptedKeys.toList ≠ []) (vMasterKeyIn : Bytes) :
    (store.unlock ctx vMasterKeyIn).1 = .ok true ↔ vMasterKeyIn = vMasterKey := by
  obtain ⟨⟨id, entry⟩, entries, hlist⟩ := exists_cons_of_ne_nil hne
  have hmem : (id, entry) ∈ store.mapCryptedKeys.toList := by
    rw [hlist]
    exact mem_cons_self ..
  obtain ⟨key, hkey, -, hentry⟩ := htracks.1 id entry (get?_eq_some_iff.mpr hmem)
  rw [← opens_iff hsep (hkeys key hkey) hentry, unlock, setCrypted, if_pos hcrypto]
  dsimp only
  rw [hlist]
  dsimp only
  split
  · rename_i hopens
    exact ⟨fun _ => hopens, fun _ => rfl⟩
  · exact Iff.rfl

theorem unlock_cases (ctx : KeyStoreContext) (vMasterKeyIn : Bytes) (store : CCryptoKeyStore) :
    (store.unlock ctx vMasterKeyIn).2 = store ∨
      ∃ store', store.setCrypted = (true, store') ∧ ((store.unlock ctx vMasterKeyIn).2 = store' ∨
          (store.unlock ctx vMasterKeyIn).2 = { store' with vMasterKey := vMasterKeyIn } ∧
            ∀ id entry entries, store'.mapCryptedKeys.toList = (id, entry) :: entries →
              opens ctx vMasterKeyIn entry.1 entry.2 = .ok true) := by
  rw [unlock]
  rcases hset : store.setCrypted with ⟨_ | _, store'⟩
  · exact Or.inl (setCrypted_eq_false hset)
  · refine Or.inr ⟨store', rfl, ?_⟩
    dsimp only
    rcases hlist : store'.mapCryptedKeys.toList with _ | ⟨⟨id, entry⟩, entries⟩
    · exact Or.inr ⟨rfl, fun _ _ _ hcons => (by cases hcons)⟩
    · dsimp only
      split
      · rename_i hopens
        refine Or.inr ⟨rfl, fun _ _ _ hcons => ?_⟩
        cases hcons
        exact hopens
      · exact Or.inl rfl

theorem Holds.unlock (h : store.Holds ctx keys) (hsep : ctx.Separates)
    (hkeys : ∀ key ∈ keys, key.Correct ctx.lib) (hmodes : store.Modes) (vMasterKeyIn : Bytes) :
    (store.unlock ctx vMasterKeyIn).2.Holds ctx keys := by
  rcases unlock_cases ctx vMasterKeyIn store with heq | ⟨store', hset, heq | ⟨heq, hopens⟩⟩
  · rwa [heq]
  · rw [heq]
    exact h.setCrypted hmodes hset
  · have hcrypto := (hmodes.setCrypted hset).2
    obtain ⟨vMasterKey, -, htracks⟩ := (h.setCrypted hmodes hset).crypted hcrypto
    rw [heq]
    refine ⟨fun hplain => absurd (hplain.symm.trans hcrypto) Bool.false_ne_true, fun _ =>
      ⟨vMasterKey, ?_, htracks⟩⟩
    rcases hlist : store'.mapCryptedKeys.toList with _ | ⟨⟨id, entry⟩, entries⟩
    · exact Or.inl (htracks.eq_empty hlist)
    · have hmem : (id, entry) ∈ store'.mapCryptedKeys.toList := by
        rw [hlist]
        exact mem_cons_self ..
      obtain ⟨key, hkey, -, hentry⟩ := htracks.1 id entry (get?_eq_some_iff.mpr hmem)
      exact Or.inr (Or.inr ((opens_iff hsep (hkeys key hkey) hentry _).mp
        (hopens id entry entries hlist)))

theorem Holds.lock (h : store.Holds ctx keys) (hmodes : store.Modes) :
    store.lock.2.Holds ctx keys := by
  rw [CCryptoKeyStore.lock]
  rcases hset : store.setCrypted with ⟨_ | _, store'⟩
  · dsimp only
    rwa [setCrypted_eq_false hset]
  · have hcrypto := (hmodes.setCrypted hset).2
    obtain ⟨vMasterKey, -, htracks⟩ := (h.setCrypted hmodes hset).crypted hcrypto
    exact ⟨fun hplain => absurd (hplain.symm.trans hcrypto) Bool.false_ne_true,
      fun _ => ⟨vMasterKey, Or.inr (Or.inl rfl), htracks⟩⟩

/-! ### Modes along the calls -/

theorem Modes.addKey (h : store.Modes) (ctx : KeyStoreContext) (key : CKey) :
    (store.addKey ctx key).2.Modes := by
  rcases addKey_cases ctx key store with ⟨-, heq⟩ | ⟨hplain, id, entry, hentry, heq⟩ |
    ⟨hcrypto, -, vchPubKey, vchCryptedSecret, -, heq⟩
  · rwa [heq]
  · rw [heq]
    refine ⟨fun hcrypto => absurd (hplain.symm.trans hcrypto) Bool.false_ne_true, h.vMasterKey_eq,
      h.mapCryptedKeys_eq, fun e he => ?_⟩
    rcases mem_insert.mp he with rfl | ⟨-, he⟩
    · exact length_of_basicEntry hentry
    · exact h.length_secret e he
  · rw [heq]
    exact ⟨h.mapKeys_eq, h.vMasterKey_eq,
      fun hplain => absurd (hplain.symm.trans hcrypto) Bool.false_ne_true, h.length_secret⟩

theorem Modes.lock (h : store.Modes) : store.lock.2.Modes := by
  rw [CCryptoKeyStore.lock]
  rcases hset : store.setCrypted with ⟨_ | _, store'⟩
  · dsimp only
    rwa [setCrypted_eq_false hset]
  · obtain ⟨hmodes, hcrypto⟩ := h.setCrypted hset
    exact hmodes.set_vMasterKey hcrypto []

theorem Modes.unlock (h : store.Modes) (ctx : KeyStoreContext) (vMasterKeyIn : Bytes) :
    (store.unlock ctx vMasterKeyIn).2.Modes := by
  rcases unlock_cases ctx vMasterKeyIn store with heq | ⟨store', hset, hcases⟩
  · rwa [heq]
  · obtain ⟨hmodes, hcrypto⟩ := h.setCrypted hset
    rcases hcases with heq | ⟨heq, -⟩
    · rwa [heq]
    · rw [heq]
      exact hmodes.set_vMasterKey hcrypto vMasterKeyIn

theorem Modes.encryptKeys (h : store.Modes) (ctx : KeyStoreContext)
    (hencrypts : store.fUseCrypto = false → ∀ entry ∈ store.mapKeys.toList,
      encryptKey ctx vMasterKeyIn (entryKey ctx entry.2) ≠ .ok none) :
    (store.encryptKeys ctx vMasterKeyIn).2.Modes := by
  cases hcrypto : store.fUseCrypto with
  | true => rwa [encryptKeys_of_crypted hcrypto]
  | false =>
    obtain ⟨mapCryptedKeys, heq, -⟩ := encryptKeys_spec h hcrypto (hencrypts hcrypto)
    rw [heq]
    exact ⟨fun _ => rfl, fun hplain => (by cases hplain), fun hplain => (by cases hplain),
      fun e he => (by cases he)⟩

/-! ### Fetching keys -/

theorem getKey_of_locked (h : store.isLocked = true) (id : CKeyID) (keyOut : CKey) :
    (store.getKey ctx id keyOut).1 = .ok false := by
  rw [isLocked, Bool.and_eq_true, List.isEmpty_iff] at h
  obtain ⟨hcrypto, hnil⟩ := h
  rw [getKey, if_neg (by rw [hcrypto]; decide)]
  split
  · rfl
  · rw [decryptSecret, hnil, if_neg (by decide)]

def Distinct (ctx : KeyStoreContext) (keys : Set CKey) : Prop :=
  ∀ k ∈ keys, ∀ k' ∈ keys, keyId ctx k = keyId ctx k' →
    k.pubBytes = k'.pubBytes ∧ k.secretBytes = k'.secretBytes

theorem Holds.getKey (h : store.Holds ctx keys) (hkeys : ∀ key ∈ keys, key.Correct ctx.lib)
    (hdistinct : Distinct ctx keys) (hunlocked : store.isLocked = false) (hkey : key ∈ keys) :
    ∃ key', store.getKey ctx (keyId ctx key) .new = (.ok true, key') ∧
      key'.getPubKey ctx.lib = .ok key.pubBytes ∧
        key'.getSecret = .ok (key.secretBytes, key'.fCompressedPubKey) := by
  obtain ⟨hform, n, hhas⟩ := hkeys key hkey
  cases hcrypto : store.fUseCrypto with
  | false =>
    have hsame : ∀ k ∈ keys, ∀ k' ∈ keys, keyId ctx k = keyId ctx k' →
        ∀ v, PlainEntry ctx k v → PlainEntry ctx k' v := by
      intro k hk k' hk' hid v hv
      obtain ⟨hpub, hsecret⟩ := hdistinct k hk k' hk' hid
      rwa [PlainEntry, hpub, hsecret] at hv
    obtain ⟨⟨vchSecret, f⟩, hget, hsecret, hpub⟩ := (h.plain hcrypto).get hsame hkey
    dsimp only at hsecret hpub
    rw [hhas.secretBytes_eq] at hsecret hpub
    rw [hsecret] at hget
    rw [beNat_beBytes hhas.lt] at hpub
    refine ⟨_, getKey_of_plain hcrypto hget hhas.lt .new, ?_, ?_⟩
    · rw [← hpub]
      exact CKey.getPubKey_of_pub rfl
    · rw [hhas.secretBytes_eq]
      exact CKey.Has.getSecret_eq ⟨hhas.lt, rfl, rfl⟩
  | true =>
    have hopen : store.vMasterKey ≠ [] := by
      rw [isLocked, hcrypto, Bool.true_and] at hunlocked
      exact fun hnil => absurd (hnil ▸ hunlocked) (by decide)
    have hsame : ∀ k ∈ keys, ∀ k' ∈ keys, keyId ctx k = keyId ctx k' → ∀ v,
        CryptedEntry ctx store.vMasterKey k v → CryptedEntry ctx store.vMasterKey k' v := by
      intro k hk k' hk' hid v hv
      obtain ⟨hpub, hsecret⟩ := hdistinct k hk k' hk' hid
      rwa [CryptedEntry, hpub, hsecret] at hv
    obtain ⟨⟨vchPubKey, vchCryptedSecret⟩, hget, hpub, hencrypt⟩ :=
      (h.tracks_vMasterKey hcrypto hopen).get hsame hkey
    dsimp only at hpub hencrypt
    have hoctets : key.pubBytes = octets (.ofFlag key.fCompressedPubKey) (ctx.lib.mulG n) := by
      rw [hhas.pubBytes_eq, hform]
    rw [hpub, hoctets] at hget
    rw [hoctets, hhas.secretBytes_eq] at hencrypt
    rw [hoctets]
    refine ⟨_, getKey_of_crypted hcrypto hget hhas.lt hencrypt .new, ?_, ?_⟩
    · simp only [CKey.getPubKey, ctx.lib.i2oECPublicKey_eq, CKey.new, Bool.or_false,
        PointForm.octets_ofFlag_length]
    · rw [hhas.secretBytes_eq]
      exact CKey.Has.getSecret_eq ⟨hhas.lt, rfl, rfl⟩

end CCryptoKeyStore

/-! ### Calls -/

inductive KeyStoreCall
  | addKey (key : CKey)
  | encryptKeys (vMasterKeyIn : Bytes)
  | lock
  | unlock (vMasterKeyIn : Bytes)

structure KeyStoreRun where
  store : CCryptoKeyStore
  added : List CKey

namespace KeyStoreRun

open CCryptoKeyStore

variable (ctx : KeyStoreContext)

def start : KeyStoreRun := ⟨.new, []⟩

variable (s : KeyStoreRun)

def step : KeyStoreCall → KeyStoreRun
  | .addKey key =>
    match s.store.addKey ctx key with
    | (.ok true, store) => ⟨store, key :: s.added⟩
    | (_, store) => ⟨store, s.added⟩
  | .encryptKeys vMasterKeyIn => ⟨(s.store.encryptKeys ctx vMasterKeyIn).2, s.added⟩
  | .lock => ⟨s.store.lock.2, s.added⟩
  | .unlock vMasterKeyIn => ⟨(s.store.unlock ctx vMasterKeyIn).2, s.added⟩

def run (calls : List KeyStoreCall) : KeyStoreRun := calls.foldl (step ctx) s

def Encrypts : KeyStoreCall → Prop
  | .encryptKeys vMasterKeyIn => s.store.fUseCrypto = false →
      ∀ entry ∈ s.store.mapKeys.toList,
        encryptKey ctx vMasterKeyIn (entryKey ctx entry.2) ≠ .ok none
  | _ => True

variable {ctx : KeyStoreContext} {s : KeyStoreRun}

structure Inv (ctx : KeyStoreContext) (s : KeyStoreRun) : Prop where
  modes : s.store.Modes
  holds : (∀ key ∈ s.added, key.Correct ctx.lib) → s.store.Holds ctx {key | key ∈ s.added}

theorem inv_start : start.Inv ctx := by
  have hempty : {key | key ∈ start.added} = (∅ : Set CKey) := by
    ext key
    simp [start]
  refine ⟨⟨fun _ => rfl, fun _ => rfl, fun _ => rfl, fun e he => (by cases he)⟩, fun _ => ?_⟩
  rw [hempty]
  exact ⟨fun _ => tracks_of_toList_eq_nil rfl, fun hcrypto => (by cases hcrypto)⟩

theorem Inv.step (h : s.Inv ctx) (hsep : ctx.Separates) {call : KeyStoreCall}
    (hencrypts : s.Encrypts ctx call) : (s.step ctx call).Inv ctx := by
  cases call with
  | addKey key =>
    have hmodes := h.modes.addKey ctx key
    rw [KeyStoreRun.step]
    split
    · rename_i store' hadd
      rw [hadd] at hmodes
      refine ⟨hmodes, fun hkeys => ?_⟩
      have hold := h.holds fun k hk => hkeys k (mem_cons_of_mem _ hk)
      have hunion : {k | k ∈ key :: s.added} = {key} ∪ {k | k ∈ s.added} := by
        ext k
        simp
      rw [hunion]
      exact hold.addKey (hkeys key (mem_cons_self ..)) hadd
    · rename_i r store' hr hadd
      rcases addKey_cases ctx key s.store with ⟨-, heq⟩ | ⟨-, _, _, -, heq⟩ | ⟨-, -, _, _, -, heq⟩
      · rw [hadd] at heq hmodes
        refine ⟨hmodes, fun hkeys => ?_⟩
        dsimp only at heq
        rw [heq]
        exact h.holds hkeys
      · exact absurd (congrArg Prod.fst (hadd.symm.trans heq)) fun htrue => hr htrue
      · exact absurd (congrArg Prod.fst (hadd.symm.trans heq)) fun htrue => hr htrue
  | encryptKeys vMasterKeyIn =>
    refine ⟨h.modes.encryptKeys ctx hencrypts, fun hkeys => ?_⟩
    cases hcrypto : s.store.fUseCrypto with
    | true =>
      rw [KeyStoreRun.step, encryptKeys_of_crypted hcrypto]
      exact h.holds hkeys
    | false => exact (h.holds hkeys).encryptKeys hkeys h.modes hcrypto (hencrypts hcrypto)
  | lock => exact ⟨h.modes.lock, fun hkeys => (h.holds hkeys).lock h.modes⟩
  | unlock vMasterKeyIn =>
    exact ⟨h.modes.unlock ctx vMasterKeyIn, fun hkeys =>
      (h.holds hkeys).unlock hsep hkeys h.modes vMasterKeyIn⟩

theorem Inv.run (h : s.Inv ctx) (hsep : ctx.Separates) {calls : List KeyStoreCall}
    (hencrypts : Runs.Along (fun s call t => t = s.step ctx call) (Encrypts ctx) s calls) :
    (s.run ctx calls).Inv ctx := by
  induction calls generalizing s with
  | nil => exact h
  | cons call calls ih => exact ih (h.step hsep hencrypts.1) (hencrypts.2 _ rfl)

/-- The store in its two modes, and locked. -/
structure Guarded (ctx : KeyStoreContext) (store : CCryptoKeyStore) : Prop where
  mapKeys_eq : store.fUseCrypto = true → store.mapKeys.toList = []
  vMasterKey_eq : store.fUseCrypto = false → store.vMasterKey = []
  getKey : store.isLocked = true → ∀ id keyOut, (store.getKey ctx id keyOut).1 = .ok false

/-- `Unlock` takes the master key used for encryption and no other, and `GetKey` finds every key
added. -/
structure Serves (ctx : KeyStoreContext) (s : KeyStoreRun) : Prop where
  unlock : s.store.mapCryptedKeys.toList ≠ [] → ∃ vMasterKey,
    (∀ entry ∈ s.store.mapCryptedKeys.toList,
      ∃ key ∈ s.added, CryptedEntry ctx vMasterKey key entry.2) ∧
    ∀ vMasterKeyIn, (s.store.unlock ctx vMasterKeyIn).1 = .ok true ↔ vMasterKeyIn = vMasterKey
  getKey : s.store.isLocked = false → ∀ key ∈ s.added,
    ∃ key', s.store.getKey ctx (keyId ctx key) .new = (.ok true, key') ∧
      key'.getPubKey ctx.lib = key.getPubKey ctx.lib ∧
        key'.getSecret.map Prod.fst = key.getSecret.map Prod.fst

theorem Inv.serves (h : s.Inv ctx) (hsep : ctx.Separates)
    (hkeys : ∀ key ∈ s.added, key.Correct ctx.lib)
    (hdistinct : Distinct ctx {key | key ∈ s.added}) : s.Serves ctx := by
  have hholds := h.holds hkeys
  constructor
  · intro hne
    cases hcrypto : s.store.fUseCrypto with
    | false => exact absurd (h.modes.mapCryptedKeys_eq hcrypto) hne
    | true =>
      obtain ⟨vMasterKey, -, htracks⟩ := hholds.crypted hcrypto
      refine ⟨vMasterKey, fun entry hentry => ?_, unlock_iff hsep hkeys hcrypto htracks hne⟩
      obtain ⟨key, hkey, -, hcrypted⟩ :=
        htracks.1 _ _ (get?_eq_some_iff.mpr hentry)
      exact ⟨key, hkey, hcrypted⟩
  · intro hunlocked key hkey
    obtain ⟨key', hget, hpub, hsecret⟩ := hholds.getKey hkeys hdistinct hunlocked hkey
    obtain ⟨-, n, hhas⟩ := hkeys key hkey
    refine ⟨key', hget, ?_, ?_⟩
    · rw [hpub, hhas.getPubKey_eq, hhas.pubBytes_eq]
    · rw [hsecret, hhas.getSecret_eq, hhas.secretBytes_eq]
      rfl

/-- Every history in which no encryption fails. Keys with the same public key must have the same
secret, since the store has one entry for them. -/
theorem run_guarded_serves (ctx : KeyStoreContext) (hsep : ctx.Separates)
    (calls : List KeyStoreCall)
    (hencrypts : Runs.Along (fun s call t => t = step ctx s call) (Encrypts ctx) start calls) :
    Guarded ctx (run ctx start calls).store ∧
      ((∀ key ∈ (run ctx start calls).added, key.Correct ctx.lib) →
        (∀ k ∈ (run ctx start calls).added, ∀ k' ∈ (run ctx start calls).added,
          keyId ctx k = keyId ctx k' → k.pubBytes = k'.pubBytes) →
        (∀ k ∈ (run ctx start calls).added, ∀ k' ∈ (run ctx start calls).added,
          k.pubBytes = k'.pubBytes → k.secretBytes = k'.secretBytes) →
        Serves ctx (run ctx start calls)) := by
  have hinv : (run ctx start calls).Inv ctx := inv_start.run hsep hencrypts
  refine ⟨⟨hinv.modes.mapKeys_eq, hinv.modes.vMasterKey_eq, fun hlocked id keyOut =>
    getKey_of_locked hlocked id keyOut⟩, fun hkeys hhash hsecret => hinv.serves hsep hkeys ?_⟩
  intro k hk k' hk' hid
  have hpub := hhash k hk k' hk' hid
  exact ⟨hpub, hsecret k hk k' hk' hpub⟩

end KeyStoreRun

namespace Sample

/-- The private keys 1 and one more than the order, which have the same public key. -/
def keyOne : CKey := ⟨⟨some 1, some (some generator), .compressed⟩, true, true⟩

def keyOneMore : CKey :=
  ⟨⟨some (secp256k1Order + 1), some (some generator), .compressed⟩, true, true⟩

def masterKey : Bytes := ofFn fun i : Fin 32 => UInt8.ofNat i

def publicKeyHash : UInt256 := 0xe187d44683cab4bc128fc44c0044b0ea03c44a47b48f28eba5ced1b64e0acdb1

/-- The secret of `keyOne` encrypted with AES-256-CBC. -/
def cryptedSecret : Bytes :=
  [0x24, 0x41, 0x49, 0x69, 0x26, 0xc2, 0x7b, 0xd7, 0xdd, 0x10, 0x8c, 0x7e, 0x3e, 0x6a, 0xe8, 0x1d,
    0x58, 0x02, 0x94, 0x68, 0x47, 0x72, 0x1d, 0x5c, 0xd2, 0xa9, 0x1d, 0xa0, 0x22, 0x4f, 0x52, 0x44,
    0x93, 0xba, 0xca, 0x80, 0x84, 0x13, 0x37, 0x64, 0x0b, 0xa1, 0xcd, 0x7e, 0xdc, 0xee, 0x09, 0x54]

/-- The cipher on the one message used; it fails on every other. -/
def walletStore : KeyStoreContext where
  lib := secp256k1
  hash _ := publicKeyHash
  hash160 := hash160
  encrypt chKey chIV vchPlaintext :=
    if chKey = masterKey ∧ chIV = leBytes 32 publicKeyHash.toNat ∧ vchPlaintext = beBytes 32 1 then
      some cryptedSecret
    else none
  decrypt chKey chIV vchCiphertext :=
    if chKey = masterKey ∧ chIV = leBytes 32 publicKeyHash.toNat ∧
        vchCiphertext = cryptedSecret then
      some (beBytes 32 1)
    else none
  decrypt_encrypt := by
    intro chKey chIV vchPlaintext vchCiphertext h
    split_ifs at h with hmessage
    cases h
    rw [if_pos ⟨hmessage.1, hmessage.2.1, rfl⟩, hmessage.2.2]

theorem walletStore_separates : walletStore.Separates := by
  intro vMasterKey vMasterKey' vchCryptedSecret vchSecret n nIV _ hencrypt hdecrypt _ _
  simp only [encryptSecret, decryptSecret, walletStore] at hencrypt hdecrypt
  split_ifs at hencrypt hdecrypt with _ hmessage _ hmessage'
  rw [hmessage.1, hmessage'.1]

theorem has_keyOne : keyOne.Has secp256k1 1 := ⟨by decide, rfl, rfl⟩

theorem has_keyOneMore : keyOneMore.Has secp256k1 (secp256k1Order + 1) := ⟨by decide, rfl, rfl⟩

def encryptedWallet : List KeyStoreCall :=
  [.addKey keyOne, .encryptKeys masterKey, .unlock masterKey]

end Sample

namespace KeyStoreRun

open CCryptoKeyStore Sample

theorem step_keyOne : start.step walletStore (.addKey keyOne) = ⟨{ new with
    mapKeys := empty.insert (hash160 (octets .compressed (some generator)))
      (beBytes 32 1, true) }, [keyOne]⟩ := by
  rw [step, start, addKey_of_plain rfl has_keyOne]
  rfl

theorem along_encryptedWallet : Runs.Along (fun s call t => t = step walletStore s call)
    (Encrypts walletStore) start encryptedWallet := by
  refine ⟨trivial, ?_⟩
  rintro _ rfl
  rw [step_keyOne]
  refine ⟨fun _ entry hentry => ?_, ?_⟩
  · obtain rfl := mem_singleton.mp hentry
    rw [encryptKey_eq (has_entryKey (length_beBytes 32 1)), beNat_beBytes (by decide)]
    rw [encryptSecret, if_pos (by decide)]
    simp [walletStore]
  · rintro _ rfl
    exact ⟨trivial, fun _ _ => trivial⟩

theorem run_guarded_serves_wallet :
    (run walletStore start encryptedWallet).added = [keyOne] ∧
      Serves walletStore (run walletStore start encryptedWallet) := by
  have hadded : (run walletStore start encryptedWallet).added = [keyOne] := by
    have hfirst := congrArg KeyStoreRun.added step_keyOne
    exact hfirst
  refine ⟨hadded, (run_guarded_serves walletStore walletStore_separates encryptedWallet
    along_encryptedWallet).2 ?_ ?_ ?_⟩
  · rw [hadded]
    rintro key hkey
    obtain rfl := mem_singleton.mp hkey
    exact ⟨rfl, 1, has_keyOne⟩
  all_goals
    rw [hadded]
    intro k hk k' hk' _
    rw [mem_singleton.mp hk, mem_singleton.mp hk']

/-- The second of two keys with the same public key takes the entry of the first. -/
theorem getKey_keyOneMore :
    let s := run walletStore start [.addKey keyOne, .addKey keyOneMore]
    keyOne ∈ s.added ∧ keyOne.Correct secp256k1 ∧ keyOneMore.Correct secp256k1 ∧
      s.store.isLocked = false ∧
        (s.store.getKey walletStore (keyId walletStore keyOne) .new).1 = .ok true ∧
          (s.store.getKey walletStore (keyId walletStore keyOne) .new).2.getSecret ≠
            keyOne.getSecret := by
  have hrun : run walletStore start [.addKey keyOne, .addKey keyOneMore] = ⟨{ new with
        mapKeys := (empty.insert (hash160 (octets .compressed (some generator)))
          (beBytes 32 1, true)).insert (hash160 (octets .compressed (some generator)))
            (beBytes 32 (secp256k1Order + 1), true) }, [keyOneMore, keyOne]⟩ := by
    have hsecond : run walletStore start [.addKey keyOne, .addKey keyOneMore] =
        (start.step walletStore (.addKey keyOne)).step walletStore (.addKey keyOneMore) := rfl
    rw [hsecond, step_keyOne, step, addKey_of_plain rfl has_keyOneMore]
    rfl
  rw [hrun]
  have hid : keyId walletStore keyOne = hash160 (octets .compressed (some generator)) := rfl
  refine ⟨mem_cons_of_mem _ (mem_cons_self ..), ⟨rfl, 1, has_keyOne⟩,
    ⟨rfl, _, has_keyOneMore⟩, rfl, ?_⟩
  rw [hid, getKey_of_plain rfl (get?_insert_self ..) has_keyOneMore.lt]
  refine ⟨rfl, fun h => ?_⟩
  rw [has_keyOne.getSecret_eq, CKey.Has.getSecret_eq ⟨has_keyOneMore.lt, rfl, rfl⟩] at h
  have hnat := congrArg (fun r => r.map fun secret => beNat secret.1) h
  exact absurd hnat (by decide)

end KeyStoreRun

end Primecoin
