import Primecoin.Script.SignatureHash
import Primecoin.Keys.Key
import Primecoin.Coins.Inputs

/-!
# The signature cache

`CheckSig` verifies a signature and remembers, in a cache that all calls share, those that were
valid. An entry is the hash that was signed, the signature and the public key, so it determines
the outcome. Entries may be evicted at any time; what stays is true of every later call.

Calls of several threads interleave: the cache is locked while it is looked into and while an
entry is stored, but not in between.
-/

namespace Primecoin

open List
/-- `ecdsaVerify` returns 1 for a good signature. -/
structure SigLibrary where
  lib : ECLibrary
  hash : Bytes → UInt256
  ecdsaVerify : UInt256 → Bytes → ECKey → ℤ

variable (sigs : SigLibrary)

def CKey.verify (hash : UInt256) (vchSig : Bytes) (key : CKey) : Bool :=
  sigs.ecdsaVerify hash vchSig key.pkey = 1

/-- `sigdata_type`: the signature hash, the signature and the public key. -/
abbrev SigData := UInt256 × Bytes × Bytes

/-- The arguments of `CheckSig`. -/
structure SigCall where
  vchSig : Bytes
  vchPubKey : Bytes
  scriptCode : CScript
  txTo : CTransaction
  nIn : ℕ
  nHashType : Int32
  flags : UInt32

namespace CSignatureCache

abbrev Entries := List SigData

def get (setValid : Entries) (k : SigData) : Bool := k ∈ setValid

/-- While there are too many entries, one of them goes: the code takes the first from a random
hash on, here `pick` is any choice. -/
def evict (nMaxCacheSize : Int64) (pick : Entries → ℕ) : ℕ → Entries → Entries
  | 0, setValid => setValid
  | k + 1, setValid =>
    if nMaxCacheSize < Int64.ofNat setValid.length then
      evict nMaxCacheSize pick k (setValid.eraseIdx (pick setValid % setValid.length))
    else setValid

/-- `Set`; every eviction makes the set smaller. -/
def set (nMaxCacheSize : Int64) (pick : Entries → ℕ) (setValid : Entries) (k : SigData) : Entries :=
  if nMaxCacheSize ≤ 0 then setValid
  else (evict nMaxCacheSize pick setValid.length setValid).insert k

end CSignatureCache

open CSignatureCache

/-- The hash type and the signature without it; none where `CheckSig` returns false at once. -/
def splitHashType (nHashType : Int32) (vchSig : Bytes) : Option (Bytes × Int32) :=
  match vchSig.getLast? with
  | none => none
  | some last =>
    let back : Int32 := last.toUInt32.toInt32
    if nHashType = 0 then some (vchSig.dropLast, back)
    else if nHashType ≠ back then none
    else some (vchSig.dropLast, nHashType)

def SigCall.data (call : SigCall) : Option SigData :=
  (splitHashType call.nHashType call.vchSig).map fun (vchSig, nHashType) =>
    (signatureHash sigs.hash call.scriptCode call.txTo call.nIn nHashType, vchSig, call.vchPubKey)

def verifies : SigData → Bool
  | (sighash, vchSig, vchPubKey) =>
    let (fOk, key) := CKey.new.setPubKey sigs.lib vchPubKey
    fOk && key.verify sigs sighash vchSig

def checkSig (nMaxCacheSize : Int64) (pick : Entries → ℕ) (setValid : Entries)
    (call : SigCall) : Bool × Entries :=
  match call.data sigs with
  | none => (false, setValid)
  | some k =>
    if get setValid k then (true, setValid)
    else if !verifies sigs k then (false, setValid)
    else if call.flags &&& scriptVerifyNoCache = 0 then
      (true, set nMaxCacheSize pick setValid k)
    else (true, setValid)

def checkSigUncached (call : SigCall) : Bool :=
  ((call.data sigs).map (verifies sigs)).getD false

/-- A sequence of calls with their results. The size of the cache is read with every entry stored.
-/
def checkSigs (sigs : SigLibrary) : List (SigCall × Int64 × (Entries → ℕ)) → Entries → List Bool
  | [], _ => []
  | (call, nMaxCacheSize, pick) :: calls, setValid =>
    let (fOk, setValid) := checkSig sigs nMaxCacheSize pick setValid call
    fOk :: checkSigs sigs calls setValid

def AllValid (setValid : Entries) : Prop :=
  ∀ k ∈ setValid, verifies sigs k = true

section Cache

variable {sigs : SigLibrary} (nMaxCacheSize : Int64) (pick : Entries → ℕ) {setValid : Entries}
  {k : SigData}

theorem evict_subset (n : ℕ) : evict nMaxCacheSize pick n setValid ⊆ setValid := by
  induction n generalizing setValid with
  | zero => exact Subset.refl _
  | succ n ih =>
    rw [evict]
    split_ifs
    · exact fun entry hentry => eraseIdx_subset (ih hentry)
    · exact Subset.refl _

theorem AllValid.set (h : AllValid sigs setValid) (hk : verifies sigs k = true) :
    AllValid sigs (set nMaxCacheSize pick setValid k) := by
  intro entry hentry
  rw [CSignatureCache.set] at hentry
  split_ifs at hentry
  · exact h entry hentry
  · rcases mem_insert_iff.mp hentry with rfl | hentry
    · exact hk
    · exact h entry (evict_subset _ _ _ hentry)

theorem AllValid.checkSig (h : AllValid sigs setValid) (call : SigCall) :
    (checkSig sigs nMaxCacheSize pick setValid call).1 = checkSigUncached sigs call ∧
      AllValid sigs (checkSig sigs nMaxCacheSize pick setValid call).2 := by
  rw [Primecoin.checkSig, checkSigUncached]
  cases call.data sigs with
  | none => exact ⟨rfl, h⟩
  | some k =>
    simp only [Option.map_some, Option.getD_some]
    split_ifs with hget hverify hflag
    · exact ⟨(h k (of_decide_eq_true hget)).symm, h⟩
    · exact ⟨((Bool.not_eq_true' _).mp hverify).symm, h⟩
    · rw [Bool.not_eq_true', Bool.not_eq_false] at hverify
      exact ⟨hverify.symm, h.set _ _ hverify⟩
    · rw [Bool.not_eq_true', Bool.not_eq_false] at hverify
      exact ⟨hverify.symm, h⟩

end Cache

/-- Whatever was called before and evicted, the results are those without a cache. -/
theorem checkSigs_eq (sigs : SigLibrary) (calls : List (SigCall × Int64 × (Entries → ℕ))) :
    checkSigs sigs calls [] = calls.map fun call => checkSigUncached sigs call.1 := by
  suffices h : ∀ setValid, AllValid sigs setValid →
      checkSigs sigs calls setValid = calls.map fun call => checkSigUncached sigs call.1 from
    h [] fun _ hk => absurd hk not_mem_nil
  induction calls with
  | nil => exact fun _ _ => rfl
  | cons call calls ih =>
    intro setValid hsound
    obtain ⟨hresult, hnext⟩ := hsound.checkSig call.2.1 call.2.2 call.1
    rw [checkSigs, map_cons, ← ih _ hnext, ← hresult]

/-! ### Several threads -/

/-- The cache and the entries that calls have verified but not stored yet. -/
structure SharedCache where
  setValid : Entries
  verified : List SigData

/-- A call looks into the locked cache, or one that has verified its entry stores it. -/
inductive CacheEvent
  | look (call : SigCall)
  | store (i : ℕ) (nMaxCacheSize : Int64) (pick : Entries → ℕ)

/-- The result is settled by the look into the cache and the verification. -/
def SharedCache.step (cache : SharedCache) : CacheEvent → Option Bool × SharedCache
  | .look call =>
    match call.data sigs with
    | none => (some false, cache)
    | some k =>
      if get cache.setValid k then (some true, cache)
      else if !verifies sigs k then (some false, cache)
      else if call.flags &&& scriptVerifyNoCache = 0 then
        (some true, { cache with verified := k :: cache.verified })
      else (some true, cache)
  | .store i nMaxCacheSize pick =>
    match cache.verified[i]? with
    | none => (none, cache)
    | some k =>
      (none, ⟨set nMaxCacheSize pick cache.setValid k, cache.verified.eraseIdx i⟩)

def SharedCache.run (sigs : SigLibrary) : List CacheEvent → SharedCache → List (Option Bool)
  | [], _ => []
  | event :: events, cache =>
    let (result, cache) := cache.step sigs event
    result :: cache.run sigs events

def CacheEvent.uncached : CacheEvent → Option Bool
  | .look call => some (checkSigUncached sigs call)
  | .store _ _ _ => none

theorem SharedCache.step_spec {sigs : SigLibrary} {cache : SharedCache}
    (hset : AllValid sigs cache.setValid) (hverified : AllValid sigs cache.verified)
    (event : CacheEvent) :
    (cache.step sigs event).1 = event.uncached sigs ∧
      AllValid sigs (cache.step sigs event).2.setValid ∧
      AllValid sigs (cache.step sigs event).2.verified := by
  cases event with
  | look call =>
    simp only [step, CacheEvent.uncached, checkSigUncached]
    cases call.data sigs with
    | none => exact ⟨rfl, hset, hverified⟩
    | some k =>
      simp only [Option.map_some, Option.getD_some]
      split_ifs with hget hverify hflag
      · rw [hset k (of_decide_eq_true hget)]
        exact ⟨rfl, hset, hverified⟩
      · rw [(Bool.not_eq_true' _).mp hverify]
        exact ⟨rfl, hset, hverified⟩
      · rw [Bool.not_eq_true', Bool.not_eq_false] at hverify
        exact ⟨congrArg some hverify.symm, hset, forall_mem_cons.mpr ⟨hverify, hverified⟩⟩
      · rw [Bool.not_eq_true', Bool.not_eq_false] at hverify
        exact ⟨congrArg some hverify.symm, hset, hverified⟩
  | store i nMaxCacheSize pick =>
    simp only [step, CacheEvent.uncached]
    cases hi : cache.verified[i]? with
    | none => exact ⟨rfl, hset, hverified⟩
    | some k =>
      refine ⟨rfl, hset.set _ _ (hverified k (mem_of_getElem? hi)), fun entry hentry => ?_⟩
      exact hverified entry (eraseIdx_subset hentry)

/-- The results do not depend on how the calls of several threads interleave. -/
theorem SharedCache.run_eq_uncached (sigs : SigLibrary) (events : List CacheEvent) :
    SharedCache.run sigs events ⟨[], []⟩ = events.map (CacheEvent.uncached sigs) := by
  have hnil : AllValid sigs [] := fun _ hk => absurd hk not_mem_nil
  suffices h : ∀ cache : SharedCache, AllValid sigs cache.setValid → AllValid sigs cache.verified →
      SharedCache.run sigs events cache = events.map (CacheEvent.uncached sigs) from
    h ⟨[], []⟩ hnil hnil
  induction events with
  | nil => exact fun _ _ _ => rfl
  | cons event events ih =>
    intro cache hset hverified
    obtain ⟨hresult, hset', hverified'⟩ := SharedCache.step_spec hset hverified event
    rw [SharedCache.run, map_cons, ← hresult, ← ih _ hset' hverified']

end Primecoin
