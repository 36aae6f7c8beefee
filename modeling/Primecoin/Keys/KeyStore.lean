import Primecoin.Keys.Key
import Primecoin.Data.SortedMap

/-!
# Key stores

While `CCryptoKeyStore` is not encrypted it keeps each key as its secret and the compression flag,
under the hash of the public key. Afterwards it keeps the public key and the secret encrypted
under a master key, and the master key itself while it is unlocked. A key that is fetched is made
again from its secret.
-/

namespace Primecoin

open Codec ECPoint

abbrev CKeyID := Fin (2 ^ 160)

/-- `encrypt` and `decrypt` get the key and the initialization vector first. -/
structure KeyStoreContext where
  lib : ECLibrary
  hash : Bytes → UInt256
  hash160 : Bytes → CKeyID
  encrypt : Bytes → Bytes → Bytes → Option Bytes
  decrypt : Bytes → Bytes → Bytes → Option Bytes
  decrypt_encrypt : ∀ {chKey chIV vchPlaintext vchCiphertext : Bytes},
    encrypt chKey chIV vchPlaintext = some vchCiphertext →
      decrypt chKey chIV vchCiphertext = some vchPlaintext

/-- `SetKey` refuses a master key of another size. -/
def KeyStoreContext.encryptSecret (ctx : KeyStoreContext) (vMasterKey vchPlaintext : Bytes)
    (nIV : UInt256) : Option Bytes :=
  if vMasterKey.length = 32 then ctx.encrypt vMasterKey (leBytes 32 nIV.toNat) vchPlaintext
  else none

def KeyStoreContext.decryptSecret (ctx : KeyStoreContext) (vMasterKey vchCiphertext : Bytes)
    (nIV : UInt256) : Option Bytes :=
  if vMasterKey.length = 32 then ctx.decrypt vMasterKey (leBytes 32 nIV.toNat) vchCiphertext
  else none

theorem KeyStoreContext.decryptSecret_encryptSecret {ctx : KeyStoreContext}
    {vMasterKey vchPlaintext vchCiphertext : Bytes} {nIV : UInt256}
    (h : ctx.encryptSecret vMasterKey vchPlaintext nIV = some vchCiphertext) :
    ctx.decryptSecret vMasterKey vchCiphertext nIV = some vchPlaintext := by
  rw [encryptSecret] at h
  split_ifs at h with hlength
  rw [decryptSecret, if_pos hlength]
  exact ctx.decrypt_encrypt h

structure CCryptoKeyStore where
  mapKeys : SortedMap CKeyID (Bytes × Bool)
  mapCryptedKeys : SortedMap CKeyID (Bytes × Bytes)
  vMasterKey : Bytes
  fUseCrypto : Bool
  deriving DecidableEq

open CCryptoKeyStore

namespace CCryptoKeyStore

variable (ctx : KeyStoreContext)

def new : CCryptoKeyStore := ⟨.empty, .empty, [], false⟩

variable (store : CCryptoKeyStore)

def isLocked : Bool := store.fUseCrypto && store.vMasterKey.isEmpty

def setCrypted : Bool × CCryptoKeyStore :=
  if store.fUseCrypto then (true, store)
  else if store.mapKeys.toList ≠ [] then (false, store)
  else (true, { store with fUseCrypto := true })

def lock : Bool × CCryptoKeyStore :=
  match store.setCrypted with
  | (false, store) => (false, store)
  | (true, store) => (true, { store with vMasterKey := [] })

/-- Whether the secret that the master key gives belongs to the public key. -/
def opens (vMasterKeyIn vchPubKey vchCryptedSecret : Bytes) : Except Failure Bool :=
  match ctx.decryptSecret vMasterKeyIn vchCryptedSecret (ctx.hash vchPubKey) with
  | none => .ok false
  | some vchSecret =>
    if vchSecret.length ≠ 32 then .ok false
    else
      let key := (CKey.new.setPubKey ctx.lib vchPubKey).2
      match key.setSecret ctx.lib vchSecret false with
      | (.error e, _) => .error e
      | (.ok _, key) => (key.getPubKey ctx.lib).map (· == vchPubKey)

/-- Only the first key is tried. -/
def unlock (vMasterKeyIn : Bytes) (store : CCryptoKeyStore) :
    Except Failure Bool × CCryptoKeyStore :=
  match store.setCrypted with
  | (false, store) => (.ok false, store)
  | (true, store) =>
    match store.mapCryptedKeys.toList with
    | [] => (.ok true, { store with vMasterKey := vMasterKeyIn })
    | (_, vchPubKey, vchCryptedSecret) :: _ =>
      match opens ctx vMasterKeyIn vchPubKey vchCryptedSecret with
      | .ok true => (.ok true, { store with vMasterKey := vMasterKeyIn })
      | result => (result, store)

def addCryptedKey (vchPubKey vchCryptedSecret : Bytes) (store : CCryptoKeyStore) :
    Bool × CCryptoKeyStore :=
  match store.setCrypted with
  | (false, store) => (false, store)
  | (true, store) => (true, { store with
      mapCryptedKeys := store.mapCryptedKeys.insert (ctx.hash160 vchPubKey)
        (vchPubKey, vchCryptedSecret) })

def encryptKey (vMasterKey : Bytes) (key : CKey) : Except Failure (Option (Bytes × Bytes)) := do
  let vchPubKey ← key.getPubKey ctx.lib
  let (vchSecret, _) ← key.getSecret
  pure ((ctx.encryptSecret vMasterKey vchSecret (ctx.hash vchPubKey)).map (vchPubKey, ·))

def basicEntry (key : CKey) : Except Failure (CKeyID × Bytes × Bool) := do
  let (vchSecret, fCompressed) ← key.getSecret
  let vchPubKey ← key.getPubKey ctx.lib
  pure (ctx.hash160 vchPubKey, vchSecret, fCompressed)

def addEncrypted : Except Failure (Option (Bytes × Bytes)) → Except Failure Bool × CCryptoKeyStore
  | .error e => (.error e, store)
  | .ok none => (.ok false, store)
  | .ok (some (vchPubKey, vchCryptedSecret)) =>
    ((.ok (store.addCryptedKey ctx vchPubKey vchCryptedSecret).1),
      (store.addCryptedKey ctx vchPubKey vchCryptedSecret).2)

def addKey (key : CKey) (store : CCryptoKeyStore) : Except Failure Bool × CCryptoKeyStore :=
  if !store.fUseCrypto then
    match basicEntry ctx key with
    | .error e => (.error e, store)
    | .ok (id, entry) => (.ok true, { store with mapKeys := store.mapKeys.insert id entry })
  else if store.isLocked then (.ok false, store)
  else store.addEncrypted ctx (encryptKey ctx store.vMasterKey key)

/-- The key that is made from an entry, written into `keyOut`. -/
def getKey (address : CKeyID) (keyOut : CKey) (store : CCryptoKeyStore) :
    Except Failure Bool × CKey :=
  if !store.fUseCrypto then
    match store.mapKeys.get? address with
    | none => (.ok false, keyOut)
    | some (vchSecret, fCompressed) => CKey.new.setSecret ctx.lib vchSecret fCompressed
  else
    match store.mapCryptedKeys.get? address with
    | none => (.ok false, keyOut)
    | some (vchPubKey, vchCryptedSecret) =>
      match ctx.decryptSecret store.vMasterKey vchCryptedSecret (ctx.hash vchPubKey) with
      | none => (.ok false, keyOut)
      | some vchSecret =>
        if vchSecret.length ≠ 32 then (.ok false, keyOut)
        else (keyOut.setPubKey ctx.lib vchPubKey).2.setSecret ctx.lib vchSecret false

def encryptEntries (vMasterKeyIn : Bytes) :
    List (CKeyID × Bytes × Bool) → CCryptoKeyStore → Except Failure Bool × CCryptoKeyStore
  | [], store => (.ok true, store)
  | (_, vchSecret, fCompressed) :: entries, store =>
    match CKey.new.setSecret ctx.lib vchSecret fCompressed with
    | (.error e, _) => (.error e, store)
    | (.ok _, key) =>
      match store.addEncrypted ctx (encryptKey ctx vMasterKeyIn key) with
      | (.ok true, store) => encryptEntries vMasterKeyIn entries store
      | (result, store) => (result, store)

def encryptKeys (vMasterKeyIn : Bytes) (store : CCryptoKeyStore) :
    Except Failure Bool × CCryptoKeyStore :=
  if store.mapCryptedKeys.toList ≠ [] ∨ store.fUseCrypto then (.ok false, store)
  else
    match encryptEntries ctx vMasterKeyIn store.mapKeys.toList
        { store with fUseCrypto := true } with
    | (.ok true, store) => (.ok true, { store with mapKeys := .empty })
    | (result, store) => (result, store)

end CCryptoKeyStore

/-! ### Keys made again from their secrets -/

namespace CKey

variable {lib : ECLibrary}

theorem fCompressedPubKey_setPubKey (form : PointForm) (n : ℕ) (key : CKey) :
    (key.setPubKey lib (octets form (lib.mulG n))).2.fCompressedPubKey =
      (decide ((octets form (lib.mulG n)).length = 33) || key.fCompressedPubKey) := by
  obtain ⟨pkey, hread, -⟩ := lib.o2iECPublicKey_octets key.pkey form n
  rw [setPubKey, hread]
  split_ifs with hlength
  · rw [decide_eq_true hlength, Bool.true_or]
    rfl
  · rw [decide_eq_false hlength, Bool.false_or]

theorem setSecret_setPubKey (form : PointForm) {n : ℕ} (hn : n < 256 ^ 32) (key : CKey) :
    (key.setPubKey lib (octets form (lib.mulG n))).2.setSecret lib (beBytes 32 n) false =
      (.ok true, ⟨⟨some n, some (lib.mulG n), .ofFlag
        (decide ((octets form (lib.mulG n)).length = 33) || key.fCompressedPubKey)⟩, true,
          decide ((octets form (lib.mulG n)).length = 33) || key.fCompressedPubKey⟩) := by
  rw [setSecret_eq (length_beBytes 32 n), beNat_beBytes hn, Bool.false_or,
    fCompressedPubKey_setPubKey]

end CKey

namespace PointForm

theorem length_octets_ofFlag {f : Bool} {p : ECPoint} (hp : p ≠ none) :
    decide ((octets (ofFlag f) p).length = 33) = f := by
  cases f <;> simp [length_octets_eq_iff, ofFlag, hp]

end PointForm

namespace CCryptoKeyStore

variable {ctx : KeyStoreContext} {store store' : CCryptoKeyStore} {key : CKey} {n : ℕ}

theorem basicEntry_eq (hkey : key.Has ctx.lib n) :
    basicEntry ctx key = .ok (ctx.hash160 (octets key.pkey.form (ctx.lib.mulG n)),
      beBytes 32 n, key.fCompressedPubKey) := by
  rw [basicEntry, hkey.getSecret_eq, hkey.getPubKey_eq]
  rfl

theorem encryptKey_eq (hkey : key.Has ctx.lib n) (vMasterKey : Bytes) :
    encryptKey ctx vMasterKey key = .ok ((ctx.encryptSecret vMasterKey (beBytes 32 n)
      (ctx.hash (octets key.pkey.form (ctx.lib.mulG n)))).map
        (octets key.pkey.form (ctx.lib.mulG n), ·)) := by
  rw [encryptKey, hkey.getSecret_eq, hkey.getPubKey_eq]
  rfl

theorem addKey_of_plain (hcrypto : store.fUseCrypto = false) (hkey : key.Has ctx.lib n) :
    store.addKey ctx key = (.ok true, { store with
      mapKeys := store.mapKeys.insert (ctx.hash160 (octets key.pkey.form (ctx.lib.mulG n)))
          (beBytes 32 n, key.fCompressedPubKey) }) := by
  rw [addKey, if_pos (by rw [hcrypto]; rfl), basicEntry_eq hkey]

theorem addEncrypted_eq (hcrypto : store.fUseCrypto = true) (entry : Bytes × Bytes) :
    store.addEncrypted ctx (.ok (some entry)) = (.ok true, { store with
      mapCryptedKeys := store.mapCryptedKeys.insert (ctx.hash160 entry.1) entry }) := by
  rw [addEncrypted, addCryptedKey, setCrypted, if_pos hcrypto]

theorem getKey_of_plain (hcrypto : store.fUseCrypto = false) {id : CKeyID} {f : Bool}
    (hentry : store.mapKeys.get? id = some (beBytes 32 n, f)) (hn : n < 256 ^ 32) (keyOut : CKey) :
    store.getKey ctx id keyOut =
      (.ok true, ⟨⟨some n, some (ctx.lib.mulG n), .ofFlag f⟩, true, f⟩) := by
  rw [getKey, if_pos (by rw [hcrypto]; rfl), hentry]
  dsimp only
  rw [CKey.setSecret_eq (length_beBytes 32 n), beNat_beBytes hn]
  simp only [CKey.new, Bool.or_false]

theorem getKey_of_crypted (hcrypto : store.fUseCrypto = true) {id : CKeyID} {form : PointForm}
    {vchCryptedSecret : Bytes} (hentry : store.mapCryptedKeys.get? id =
      some (octets form (ctx.lib.mulG n), vchCryptedSecret)) (hn : n < 256 ^ 32)
    (hencrypt : ctx.encryptSecret store.vMasterKey (beBytes 32 n)
      (ctx.hash (octets form (ctx.lib.mulG n))) = some vchCryptedSecret) (keyOut : CKey) :
    store.getKey ctx id keyOut = (.ok true, ⟨⟨some n, some (ctx.lib.mulG n), .ofFlag
      (decide ((octets form (ctx.lib.mulG n)).length = 33) || keyOut.fCompressedPubKey)⟩,
        true, decide ((octets form (ctx.lib.mulG n)).length = 33) ||
          keyOut.fCompressedPubKey⟩) := by
  rw [getKey, if_neg (by rw [hcrypto]; decide), hentry]
  dsimp only
  rw [KeyStoreContext.decryptSecret_encryptSecret hencrypt]
  dsimp only
  rw [if_neg (not_not.mpr (length_beBytes 32 n)), CKey.setSecret_setPubKey form hn]

/-- The form depends on the flag of the key, or of the object that is filled in. -/
theorem getKey_addKey (hkey : key.Has ctx.lib n) (hadd : store.addKey ctx key = (.ok true, store'))
    (keyOut : CKey) :
    ∃ f, store'.getKey ctx (ctx.hash160 (octets key.pkey.form (ctx.lib.mulG n))) keyOut =
        (.ok true, ⟨⟨some n, some (ctx.lib.mulG n), .ofFlag f⟩, true, f⟩) ∧
      (f = key.fCompressedPubKey ∨ f = (decide
        ((octets key.pkey.form (ctx.lib.mulG n)).length = 33) || keyOut.fCompressedPubKey)) := by
  rw [addKey] at hadd
  split_ifs at hadd with hcrypto hlocked
  · rw [basicEntry_eq hkey] at hadd
    cases hadd
    exact ⟨_, getKey_of_plain (by simpa using hcrypto) (SortedMap.get?_insert_self ..) hkey.lt
      keyOut, Or.inl rfl⟩
  · cases hadd
  · rw [encryptKey_eq hkey] at hadd
    have hcrypto : store.fUseCrypto = true := by simpa using hcrypto
    cases hencrypt : ctx.encryptSecret store.vMasterKey (beBytes 32 n)
        (ctx.hash (octets key.pkey.form (ctx.lib.mulG n))) with
    | none =>
      rw [hencrypt] at hadd
      cases hadd
    | some vchCryptedSecret =>
      rw [hencrypt, Option.map_some, addEncrypted_eq hcrypto] at hadd
      cases hadd
      refine ⟨_, getKey_of_crypted ?_ (SortedMap.get?_insert_self ..) hkey.lt ?_ keyOut, Or.inr rfl⟩
      · exact hcrypto
      · exact hencrypt

end CCryptoKeyStore

/-- The other object gets the same public key from the secret and the flag, and a key added to a
store is fetched with a public key that has its id. -/
structure CKey.Recovers (ctx : KeyStoreContext) (key other : CKey) : Prop where
  setSecret : ∀ vchSecret fCompressed, key.getSecret = .ok (vchSecret, fCompressed) →
    ∃ other', other.setSecret ctx.lib vchSecret fCompressed = (.ok true, other') ∧
      other'.getPubKey ctx.lib = key.getPubKey ctx.lib
  getKey : ∀ vchPubKey, key.getPubKey ctx.lib = .ok vchPubKey →
    ∀ store store' : CCryptoKeyStore, store.addKey ctx key = (.ok true, store') →
      ∃ key' vchPubKey', store'.getKey ctx (ctx.hash160 vchPubKey) other = (.ok true, key') ∧
        key'.getPubKey ctx.lib = .ok vchPubKey' ∧ ctx.hash160 vchPubKey' = ctx.hash160 vchPubKey

namespace CKey

variable {ctx : KeyStoreContext} {key : CKey} {n : ℕ}

/-- The form of the key is the one its flag says, and the other object does not ask for a
compressed key when this one is not. -/
def FlagsAgree (key other : CKey) : Prop :=
  key.pkey.form = .ofFlag key.fCompressedPubKey ∧
    (other.fCompressedPubKey = true → key.fCompressedPubKey = true)

theorem Has.recovers (hkey : key.Has ctx.lib n) (other : CKey)
    (h : ctx.lib.mulG n = none ∨ key.FlagsAgree other) : key.Recovers ctx other := by
  have hform : ∀ f, (ctx.lib.mulG n ≠ none → f = key.fCompressedPubKey) →
      octets (.ofFlag f) (ctx.lib.mulG n) = octets key.pkey.form (ctx.lib.mulG n) := by
    intro f hf
    rw [octets_eq_iff]
    by_cases hp : ctx.lib.mulG n = none
    · exact Or.inr hp
    · rw [hf hp]
      exact Or.inl (h.resolve_left hp).1.symm
  have hor : ctx.lib.mulG n ≠ none →
      (key.fCompressedPubKey || other.fCompressedPubKey) = key.fCompressedPubKey := by
    intro hp
    have hother := (h.resolve_left hp).2
    cases hflag : key.fCompressedPubKey with
    | true => rfl
    | false =>
      rw [hflag] at hother
      rw [Bool.false_or, Bool.eq_false_iff]
      exact fun htrue => absurd (hother htrue) Bool.false_ne_true
  refine ⟨fun vchSecret fCompressed hsecret => ?_, fun vchPubKey hpub store store' hadd => ?_⟩
  · rw [hkey.getSecret_eq] at hsecret
    cases hsecret
    refine ⟨_, setSecret_eq (length_beBytes 32 n) _ other, ?_⟩
    rw [hkey.getPubKey_eq, getPubKey_of_pub rfl, beNat_beBytes hkey.lt]
    dsimp only
    rw [hform _ hor]
  · rw [hkey.getPubKey_eq] at hpub
    cases hpub
    obtain ⟨f, hget, hf⟩ := getKey_addKey hkey hadd other
    refine ⟨_, _, hget, getPubKey_of_pub rfl, ?_⟩
    rw [hform f fun hp => ?_]
    rcases hf with rfl | rfl
    · rfl
    · rw [(h.resolve_left hp).1, PointForm.length_octets_ofFlag hp, hor hp]

end CKey

namespace Sample

def generator : ℕ × ℕ :=
  (0x79BE667EF9DCBBAC55A06295CE870B07029BFCDB2DCE28D959F2815B16F81798,
    0x483ADA7726A3C4655DA4FBFC0E1108A8FD17B448A68554199C47D08FFB10D4B8)

def secp256k1Order : ℕ := 0xFFFFFFFFFFFFFFFFFFFFFFFFFFFFFFFEBAAEDCE6AF48A03BBFD25E8CD0364141

/-- The curve, as far as the private keys are congruent to 0 or 1. -/
def mulG (n : ℕ) : ECPoint := if n % secp256k1Order = 0 then none else some generator

/-- Reads the octets of the generator and of the point at infinity. -/
def readPoint (bytes : Bytes) : Option ECPoint :=
  if bytes = [0] then some none
  else if bytes = octets .compressed (some generator) ∨
      bytes = octets .uncompressed (some generator) ∨
      bytes = octets .hybrid (some generator) then some (some generator)
  else none

theorem readPoint_octets (form : PointForm) (n : ℕ) :
    readPoint (octets form (mulG n)) = some (mulG n) := by
  rw [mulG]
  split_ifs
  · rfl
  · have hne : octets form (some generator) ≠ [0] := by
      intro h
      have hlength := congrArg List.length h
      cases form <;> simp [octets, generator] at hlength
    rw [readPoint, if_neg hne, if_pos (by cases form <;> simp)]

def secp256k1 : ECLibrary where
  order := secp256k1Order
  mulG := mulG
  d2iECPrivateKey _ _ := none
  o2iECPublicKey pkey bytes := (readPoint bytes).map fun p => { pkey with pub := some p }
  i2oECPublicKey := octets
  checkKey _ := false
  order_le := by decide
  checkKey_priv _ h := (by cases h)
  i2oECPublicKey_eq _ _ := rfl
  o2iECPublicKey_octets pkey form n :=
    ⟨{ pkey with pub := some (mulG n) }, by rw [readPoint_octets]; rfl, rfl⟩

def hash160 (bytes : Bytes) : CKeyID :=
  if bytes = octets .compressed (some generator) then
    0xd63b43f123a3b3d1451c9454d4969119e8761e75
  else if bytes = octets .uncompressed (some generator) then
    0xa5281d7b1235b0ab87c60a96328528f5f94bb291
  else Fin.ofNat _ bytes.length

end Sample

namespace CKey

open Sample

end CKey

end Primecoin
