import Primecoin.Script.Parse

/-!
# Standard scripts

`Solver` moves one cursor over the script and one over each template, whose wildcards stand for a
key, a key hash, a small integer or any number of keys, and collects what they stand for.

A script is accepted exactly if its instructions have one of the standard forms. A multisig form
whose counts are wrong is refused, but the type and the solutions stay behind.
-/

namespace Primecoin

open List Option

def opSmallInteger : UInt8 := 0xfa
def opPubKeys : UInt8 := 0xfb
def opPubKeyHash : UInt8 := 0xfd
def opPubKey : UInt8 := 0xfe

/-- `txnouttype` -/
inductive TxnOutType
  | nonStandard
  | pubKey
  | pubKeyHash
  | scriptHash
  | multiSig
  deriving DecidableEq, Repr

def isKeySize (vch : Bytes) : Bool := 33 ≤ vch.length && vch.length ≤ 120

def isSmallInteger (opcode : UInt8) : Bool := opcode = 0 || (op1 ≤ opcode && opcode ≤ op16)

/-- The templates in the order of the map. -/
def mTemplates : List (TxnOutType × CScript) :=
  [(.pubKey, [opPubKey, opCheckSig]),
    (.pubKeyHash, [opDup, opHash160, opPubKeyHash, opEqualVerify, opCheckSig]),
    (.multiSig, [opSmallInteger, opPubKeys, opSmallInteger, opCheckMultiSig])]

/-- The inner loop for `OP_PUBKEYS`, from an instruction of the script on. A failed `GetOp` leaves
no bytes, so the loop ends with it. -/
def pubKeysLoop : ℕ → GetOpResult → List Bytes → GetOpResult × List Bytes
  | 0, r1, vSolutions => (r1, vSolutions)
  | k + 1, r1, vSolutions =>
    if isKeySize r1.vchRet then pubKeysLoop k (getOp r1.pc) (vSolutions ++ [r1.vchRet])
    else (r1, vSolutions)

/-- Compares an instruction with one of the template; the solutions afterwards if they match. -/
def matchOp (opcode1 : UInt8) (vch1 : Bytes) (opcode2 : UInt8) (vch2 : Bytes)
    (vSolutions : List Bytes) : Option (List Bytes) :=
  if opcode2 = opPubKey then
    if isKeySize vch1 then some (vSolutions ++ [vch1]) else none
  else if opcode2 = opPubKeyHash then
    if vch1.length = 20 then some (vSolutions ++ [vch1]) else none
  else if opcode2 = opSmallInteger then
    if isSmallInteger opcode1 then some (vSolutions ++ [[UInt8.ofNat (decodeOpN opcode1)]])
    else none
  else if opcode1 = opcode2 ∧ vch1 = vch2 then some vSolutions
  else none

/-- The loop over the two cursors; `none` where it is left without a match. -/
def matchLoop : ℕ → CScript → CScript → List Bytes → Option (List Bytes)
  | 0, _, _, _ => none
  | k + 1, pc1, pc2, vSolutions =>
    if pc1 = [] ∧ pc2 = [] then some vSolutions
    else
      let r1 := getOp pc1
      let r2 := getOp pc2
      if !r1.fRet then none
      else if !r2.fRet then none
      else if r2.opcodeRet = opPubKeys then
        let (r1, vSolutions) := pubKeysLoop pc1.length r1 vSolutions
        let r2 := getOp r2.pc
        if !r2.fRet then none
        else
          (matchOp r1.opcodeRet r1.vchRet r2.opcodeRet r2.vchRet vSolutions).bind
            (matchLoop k r1.pc r2.pc)
      else
        (matchOp r1.opcodeRet r1.vchRet r2.opcodeRet r2.vchRet vSolutions).bind
          (matchLoop k r1.pc r2.pc)

def matchTemplate (script1 script2 : CScript) : Option (List Bytes) :=
  matchLoop (script2.length + 1) script1 script2 []

/-- The additional checks for `TX_MULTISIG` fail. -/
def wrongCounts (vSolutions : List Bytes) : Bool :=
  let m := (vSolutions.headD []).headD 0
  let n := (vSolutions.getLastD []).headD 0
  m < 1 || n < 1 || n < m || vSolutions.length - 2 ≠ n.toNat

def scanTemplates (script : CScript) : List (TxnOutType × CScript) → Bool × TxnOutType × List Bytes
  | [] => (false, .nonStandard, [])
  | (type, tplate) :: templates =>
    match matchTemplate script tplate with
    | none => scanTemplates script templates
    | some vSolutions =>
      if type = .multiSig && wrongCounts vSolutions then (false, type, vSolutions)
      else (true, type, vSolutions)

def solver (scriptPubKey : CScript) (vSolutions : List Bytes) : Bool × TxnOutType × List Bytes :=
  if isPayToScriptHash scriptPubKey then
    (true, .scriptHash, vSolutions ++ [(scriptPubKey.drop 2).take 20])
  else scanTemplates scriptPubKey mTemplates

/-! ### The loop over the instructions -/

section Match

variable {k : ℕ} {pc1 pc2 : CScript} {opcode2 : UInt8} {vSolutions out : List Bytes}

theorem matchLoop_nil_iff :
    matchLoop (k + 1) pc1 [] vSolutions = some out ↔ pc1 = [] ∧ out = vSolutions := by
  simp only [matchLoop]
  split_ifs with hnil hret hret' hkeys
  · simp [hnil, eq_comm]
  all_goals simp_all [getOp]

/-- A round on an instruction of the template that is not `OP_PUBKEYS`. -/
theorem matchLoop_cons_iff (hop : opPushData4 < opcode2) (hne : opcode2 ≠ opPubKeys) :
    matchLoop (k + 1) pc1 (opcode2 :: pc2) vSolutions = some out ↔
      ∃ opcode1 vch1 pc1' next, getOp pc1 = ⟨true, opcode1, vch1, pc1'⟩ ∧
        matchOp opcode1 vch1 opcode2 [] vSolutions = some next ∧
        matchLoop k pc1' pc2 next = some out := by
  simp only [matchLoop, getOp_of_lt hop]
  rw [if_neg (by simp)]
  rcases hget : getOp pc1 with ⟨fRet, opcode1, vch1, pc1'⟩
  cases fRet with
  | false => simp
  | true =>
    simp only [Bool.not_true, Bool.false_eq_true, if_false, hne, bind_eq_some_iff,
      GetOpResult.mk.injEq, true_and]
    constructor
    · rintro ⟨next, hmatch, hrest⟩
      exact ⟨opcode1, vch1, pc1', next, ⟨rfl, rfl, rfl⟩, hmatch, hrest⟩
    · rintro ⟨_, _, _, next, ⟨rfl, rfl, rfl⟩, hmatch, hrest⟩
      exact ⟨next, hmatch, hrest⟩

theorem matchLoop_pubKey_iff : matchLoop (k + 1) pc1 (opPubKey :: pc2) vSolutions = some out ↔
      ∃ opcode key pc1', getOp pc1 = ⟨true, opcode, key, pc1'⟩ ∧ isKeySize key = true ∧
        matchLoop k pc1' pc2 (vSolutions ++ [key]) = some out := by
  rw [matchLoop_cons_iff (by decide) (by decide)]
  simp only [matchOp, if_true, ite_none_right_eq_some, some.injEq]
  constructor
  · rintro ⟨opcode, key, pc1', _, hget, ⟨hkey, rfl⟩, hrest⟩
    exact ⟨opcode, key, pc1', hget, hkey, hrest⟩
  · rintro ⟨opcode, key, pc1', hget, hkey, hrest⟩
    exact ⟨opcode, key, pc1', _, hget, ⟨hkey, rfl⟩, hrest⟩

theorem matchLoop_pubKeyHash_iff :
    matchLoop (k + 1) pc1 (opPubKeyHash :: pc2) vSolutions = some out ↔
      ∃ opcode hash pc1', getOp pc1 = ⟨true, opcode, hash, pc1'⟩ ∧ hash.length = 20 ∧
        matchLoop k pc1' pc2 (vSolutions ++ [hash]) = some out := by
  rw [matchLoop_cons_iff (by decide) (by decide)]
  simp only [matchOp, show opPubKeyHash ≠ opPubKey by decide, if_false, if_true,
    ite_none_right_eq_some, some.injEq]
  constructor
  · rintro ⟨opcode, hash, pc1', _, hget, ⟨hhash, rfl⟩, hrest⟩
    exact ⟨opcode, hash, pc1', hget, hhash, hrest⟩
  · rintro ⟨opcode, hash, pc1', hget, hhash, hrest⟩
    exact ⟨opcode, hash, pc1', _, hget, ⟨hhash, rfl⟩, hrest⟩

theorem matchOp_smallInteger_iff {opcode1 : UInt8} {vch1 : Bytes} {next : List Bytes} :
    matchOp opcode1 vch1 opSmallInteger [] vSolutions = some next ↔
      isSmallInteger opcode1 = true ∧ next = vSolutions ++ [[UInt8.ofNat (decodeOpN opcode1)]] := by
  rw [matchOp, if_neg (by decide), if_neg (by decide), if_pos rfl, ite_none_right_eq_some,
    some.injEq, eq_comm (a := next)]

theorem matchLoop_exact_iff (hlow : opPushData4 < opcode2) (hhigh : opcode2 < opSmallInteger) :
    matchLoop (k + 1) pc1 (opcode2 :: pc2) vSolutions = some out ↔
      ∃ pc1', getOp pc1 = ⟨true, opcode2, [], pc1'⟩ ∧
        matchLoop k pc1' pc2 vSolutions = some out := by
  have hne : ∀ wildcard, opSmallInteger ≤ wildcard → opcode2 ≠ wildcard := by
    rintro wildcard hle rfl
    exact UInt8.not_le.mpr hhigh hle
  rw [matchLoop_cons_iff hlow (hne _ (by decide))]
  simp only [matchOp, if_neg (hne opPubKey (by decide)), if_neg (hne opPubKeyHash (by decide)),
    if_neg (hne opSmallInteger (by decide)), ite_none_right_eq_some, some.injEq]
  constructor
  · rintro ⟨_, _, pc1', _, hget, ⟨⟨rfl, rfl⟩, rfl⟩, hrest⟩
    exact ⟨pc1', hget, hrest⟩
  · rintro ⟨pc1', hget, hrest⟩
    exact ⟨_, _, pc1', _, hget, ⟨⟨rfl, rfl⟩, rfl⟩, hrest⟩

theorem vchRet_of_isSmallInteger {pc pc' : CScript} {opcode : UInt8} {vch : Bytes}
    (h : getOp pc = ⟨true, opcode, vch, pc'⟩) (hsmall : isSmallInteger opcode = true) :
    vch = [] := by
  cases pc with
  | nil => cases h
  | cons first pc =>
    obtain rfl := opcodeRet_of_getOp_cons h
    rw [isSmallInteger, Bool.or_eq_true, Bool.and_eq_true, decide_eq_true_iff,
      decide_eq_true_iff] at hsmall
    rcases hsmall with rfl | ⟨hlow, -⟩
    · rw [getOp_zero] at h
      exact (GetOpResult.mk.inj h).2.2.1.symm
    · rw [getOp_of_lt (UInt8.lt_of_lt_of_le (by decide) hlow)] at h
      exact (GetOpResult.mk.inj h).2.2.1.symm

theorem pubKeysLoop_reads (hk : pc1.length ≤ k) {r1 : GetOpResult}
    (h : pubKeysLoop k (getOp pc1) vSolutions = (r1, out)) :
    ∃ keys pc1', Reads pc1 keys pc1' ∧ (∀ e ∈ keys, isKeySize e.2 = true) ∧ r1 = getOp pc1' ∧
      isKeySize r1.vchRet = false ∧ out = vSolutions ++ keys.map Prod.snd := by
  induction k generalizing pc1 vSolutions with
  | zero =>
    cases length_eq_zero_iff.mp (Nat.le_zero.mp hk)
    obtain ⟨rfl, rfl⟩ := Prod.mk.inj h
    exact ⟨[], [], .nil, by simp, rfl, rfl, by simp⟩
  | succ k ih =>
    simp only [pubKeysLoop] at h
    split_ifs at h with hkey
    · have hret : (getOp pc1).fRet = true := by
        by_contra hret
        rw [(getOp_of_not_fRet (eq_false_of_ne_true hret)).2] at hkey
        cases hkey
      have hlt := length_getOp_pc_lt pc1 hret
      obtain ⟨keys, pc1', hreads, hkeys, hr1, hnot, rfl⟩ := ih (by omega) h
      refine ⟨((getOp pc1).opcodeRet, (getOp pc1).vchRet) :: keys, pc1', ?_, ?_, hr1, hnot, ?_⟩
      · exact .cons (by rw [← hret]) hreads
      · exact forall_mem_cons.mpr ⟨hkey, hkeys⟩
      · rw [map_cons, append_assoc, singleton_append]
    · obtain ⟨rfl, rfl⟩ := Prod.mk.inj h
      exact ⟨[], pc1, .nil, by simp, rfl, eq_false_of_ne_true hkey, by simp⟩

theorem pubKeysLoop_of_reads {keys : List (UInt8 × Bytes)} {pc1' : CScript}
    (hk : keys.length ≤ k) (hreads : Reads pc1 keys pc1')
    (hkeys : ∀ e ∈ keys, isKeySize e.2 = true) (hnot : isKeySize (getOp pc1').vchRet = false) :
    pubKeysLoop k (getOp pc1) vSolutions = (getOp pc1', vSolutions ++ keys.map Prod.snd) := by
  induction keys generalizing k pc1 vSolutions with
  | nil =>
    cases hreads
    rw [map_nil, append_nil]
    cases k with
    | zero => rfl
    | succ k => rw [pubKeysLoop, if_neg (by simp [hnot])]
  | cons e keys ih =>
    obtain ⟨opcode, vch⟩ := e
    obtain ⟨next, hget, hrest⟩ := Reads.cons_iff.mp hreads
    obtain ⟨hkey, hkeys⟩ := forall_mem_cons.mp hkeys
    obtain ⟨k, rfl⟩ := Nat.exists_eq_succ_of_ne_zero (n := k) (by simp at hk; omega)
    rw [pubKeysLoop, hget, if_pos hkey, ih (by simp at hk; omega) hrest hkeys, map_cons,
      append_assoc, singleton_append]

theorem matchLoop_smallInteger_iff :
    matchLoop (k + 1) pc1 (opSmallInteger :: pc2) vSolutions = some out ↔
      ∃ opcode pc1', getOp pc1 = ⟨true, opcode, [], pc1'⟩ ∧ isSmallInteger opcode = true ∧
        matchLoop k pc1' pc2 (vSolutions ++ [[UInt8.ofNat (decodeOpN opcode)]]) = some out := by
  rw [matchLoop_cons_iff (by decide) (by decide)]
  simp only [matchOp_smallInteger_iff]
  constructor
  · rintro ⟨opcode, vch, pc1', _, hget, ⟨hsmall, rfl⟩, hrest⟩
    obtain rfl := vchRet_of_isSmallInteger hget hsmall
    exact ⟨opcode, pc1', hget, hsmall, hrest⟩
  · rintro ⟨opcode, pc1', hget, hsmall, hrest⟩
    exact ⟨opcode, [], pc1', _, hget, ⟨hsmall, rfl⟩, hrest⟩

/-- A round on `OP_PUBKEYS`, which ends with the small integer behind the keys. -/
theorem matchLoop_pubKeys_iff :
    matchLoop (k + 1) pc1 (opPubKeys :: opSmallInteger :: pc2) vSolutions = some out ↔
      ∃ keys opcode pc1', Reads pc1 (keys ++ [(opcode, [])]) pc1' ∧
        (∀ e ∈ keys, isKeySize e.2 = true) ∧ isSmallInteger opcode = true ∧
        matchLoop k pc1' pc2
          (vSolutions ++ keys.map Prod.snd ++ [[UInt8.ofNat (decodeOpN opcode)]]) = some out := by
  have hround : ∀ r, pubKeysLoop pc1.length (getOp pc1) vSolutions = r →
      matchLoop (k + 1) pc1 (opPubKeys :: opSmallInteger :: pc2) vSolutions =
        if !(getOp pc1).fRet then none
        else (matchOp r.1.opcodeRet r.1.vchRet opSmallInteger [] r.2).bind
          (matchLoop k r.1.pc pc2) := by
    rintro _ rfl
    simp only [matchLoop, getOp_of_lt (show opPushData4 < opPubKeys by decide),
      getOp_of_lt (show opPushData4 < opSmallInteger by decide)]
    simp
  rw [hround _ rfl]
  constructor
  · intro h
    split_ifs at h with hret
    rcases hloop : pubKeysLoop pc1.length (getOp pc1) vSolutions with ⟨r1, sols⟩
    obtain ⟨keys, mid, hreads, hkeys, rfl, -, rfl⟩ := pubKeysLoop_reads le_rfl hloop
    rw [hloop] at h
    obtain ⟨next, hmatch, hrest⟩ := bind_eq_some_iff.mp h
    obtain ⟨hsmall, rfl⟩ := matchOp_smallInteger_iff.mp hmatch
    have hread : (getOp mid).fRet = true := by
      by_contra hread
      rw [(getOp_of_not_fRet (eq_false_of_ne_true hread)).1] at hsmall
      exact absurd hsmall (by decide)
    have hget : getOp mid = ⟨true, (getOp mid).opcodeRet, (getOp mid).vchRet, (getOp mid).pc⟩ := by
      rw [← hread]
    rw [vchRet_of_isSmallInteger hget hsmall] at hget
    refine ⟨keys, (getOp mid).opcodeRet, (getOp mid).pc, ?_, hkeys, hsmall, hrest⟩
    exact Reads.append_iff.mpr ⟨mid, hreads, .cons hget .nil⟩
  · rintro ⟨keys, opcode, pc1', hreads, hkeys, hsmall, hrest⟩
    obtain ⟨mid, hreadsKeys, hlast⟩ := Reads.append_iff.mp hreads
    obtain ⟨last, hget, hnil⟩ := Reads.cons_iff.mp hlast
    obtain rfl := Reads.nil_iff.mp hnil
    have hlen := hreadsKeys.length_le
    have hret : (getOp pc1).fRet = true := by
      cases hreadsKeys with
      | nil => rw [hget]
      | cons hop _ => rw [hop]
    rw [pubKeysLoop_of_reads (by omega) hreadsKeys hkeys (by rw [hget]; rfl), hget]
    simp only [hret, Bool.not_true, Bool.false_eq_true, if_false]
    rw [matchOp_smallInteger_iff.mpr ⟨hsmall, rfl⟩]
    exact hrest

end Match

/-! ### The templates -/

section Templates

variable {script : CScript} {out : List Bytes}

theorem matchTemplate_pubKey_iff : matchTemplate script [opPubKey, opCheckSig] = some out ↔
      ∃ opcode key, parse script = some [(opcode, key), (opCheckSig, [])] ∧
        isKeySize key = true ∧ out = [key] := by
  simp only [matchTemplate, length_cons, length_nil, parse_eq_some_iff, Reads.cons_iff,
    Reads.nil_iff, matchLoop_pubKey_iff,
    matchLoop_exact_iff (show opPushData4 < opCheckSig by decide) (by decide), matchLoop_nil_iff]
  constructor
  · rintro ⟨opcode, key, pc, hget, hkey, _, hget', rfl, rfl⟩
    exact ⟨opcode, key, ⟨pc, hget, [], hget', rfl⟩, hkey, rfl⟩
  · rintro ⟨opcode, key, ⟨pc, hget, _, hget', rfl⟩, hkey, rfl⟩
    exact ⟨opcode, key, pc, hget, hkey, [], hget', rfl, rfl⟩

theorem matchTemplate_pubKeyHash_iff :
    matchTemplate script [opDup, opHash160, opPubKeyHash, opEqualVerify, opCheckSig] = some out ↔
      ∃ opcode hash, parse script = some [(opDup, []), (opHash160, []), (opcode, hash),
          (opEqualVerify, []), (opCheckSig, [])] ∧ hash.length = 20 ∧ out = [hash] := by
  simp only [matchTemplate, length_cons, length_nil, parse_eq_some_iff, Reads.cons_iff,
    Reads.nil_iff, matchLoop_pubKeyHash_iff,
    matchLoop_exact_iff (show opPushData4 < opDup by decide) (by decide),
    matchLoop_exact_iff (show opPushData4 < opHash160 by decide) (by decide),
    matchLoop_exact_iff (show opPushData4 < opEqualVerify by decide) (by decide),
    matchLoop_exact_iff (show opPushData4 < opCheckSig by decide) (by decide), matchLoop_nil_iff]
  constructor
  · rintro ⟨p1, h1, p2, h2, opcode, hash, p3, h3, hlen, p4, h4, _, h5, rfl, rfl⟩
    exact ⟨opcode, hash, ⟨p1, h1, p2, h2, p3, h3, p4, h4, [], h5, rfl⟩, hlen, rfl⟩
  · rintro ⟨opcode, hash, ⟨p1, h1, p2, h2, p3, h3, p4, h4, _, h5, rfl⟩, hlen, rfl⟩
    exact ⟨p1, h1, p2, h2, opcode, hash, p3, h3, hlen, p4, h4, [], h5, rfl, rfl⟩

theorem matchTemplate_multiSig_iff :
    matchTemplate script [opSmallInteger, opPubKeys, opSmallInteger, opCheckMultiSig] = some out ↔
      ∃ opM keys opN, parse script =
          some ((opM, []) :: (keys ++ [(opN, []), (opCheckMultiSig, [])])) ∧
        isSmallInteger opM = true ∧ (∀ e ∈ keys, isKeySize e.2 = true) ∧
        isSmallInteger opN = true ∧
        out = [UInt8.ofNat (decodeOpN opM)] :: (keys.map Prod.snd ++
          [[UInt8.ofNat (decodeOpN opN)]]) := by
  simp only [matchTemplate, length_cons, length_nil, parse_eq_some_iff, Reads.cons_iff,
    matchLoop_smallInteger_iff, matchLoop_pubKeys_iff,
    matchLoop_exact_iff (show opPushData4 < opCheckMultiSig by decide) (by decide), matchLoop_nil_iff]
  constructor
  · rintro ⟨opM, p1, h1, hM, keys, opN, p2, h2, hkeys, hN, _, h3, rfl, rfl⟩
    refine ⟨opM, keys, opN, ⟨p1, h1, ?_⟩, hM, hkeys, hN, by simp⟩
    rw [append_cons]
    exact Reads.append_iff.mpr ⟨p2, h2, .cons h3 .nil⟩
  · rintro ⟨opM, keys, opN, ⟨p1, h1, h2⟩, hM, hkeys, hN, rfl⟩
    rw [append_cons] at h2
    obtain ⟨p2, h2, hlast⟩ := Reads.append_iff.mp h2
    obtain ⟨p3, h3, hnil⟩ := Reads.cons_iff.mp hlast
    obtain rfl := Reads.nil_iff.mp hnil
    exact ⟨opM, p1, h1, hM, keys, opN, p2, h2, hkeys, hN, [], h3, rfl, by simp⟩

end Templates

/-! ### The standard forms -/

/-- The instructions are `OP_m`, the pushes of the keys, `OP_n` and `OP_CHECKMULTISIG`. -/
def MultiSigForm (script : CScript) (m : ℕ) (keys : List Bytes) (n : ℕ) : Prop :=
  ∃ opM pushes opN,
    parse script = some ((opM, []) :: (pushes ++ [(opN, []), (opCheckMultiSig, [])])) ∧
      isSmallInteger opM = true ∧ (∀ e ∈ pushes, isKeySize e.2 = true) ∧
      isSmallInteger opN = true ∧
      m = decodeOpN opM ∧ keys = pushes.map Prod.snd ∧ n = decodeOpN opN

/-- At least one signature, at most one for each key, and as many keys as announced. -/
def WellCounted (m : ℕ) (keys : List Bytes) (n : ℕ) : Prop := 1 ≤ m ∧ m ≤ n ∧ keys.length = n

instance (m : ℕ) (keys : List Bytes) (n : ℕ) : Decidable (WellCounted m keys n) :=
  inferInstanceAs (Decidable (1 ≤ m ∧ m ≤ n ∧ keys.length = n))

/-- The scripts of each type, with the keys, hashes and counts that they push. -/
inductive Standard : CScript → TxnOutType → List Bytes → Prop
  | scriptHash {hash : Bytes} (hlen : hash.length = 20) :
      Standard (opHash160 :: 0x14 :: (hash ++ [opEqual])) .scriptHash [hash]
  | pubKey {script : CScript} {opcode : UInt8} {key : Bytes}
      (hparse : parse script = some [(opcode, key), (opCheckSig, [])])
      (hkey : isKeySize key = true) : Standard script .pubKey [key]
  | pubKeyHash {script : CScript} {opcode : UInt8} {hash : Bytes}
      (hparse : parse script = some [(opDup, []), (opHash160, []), (opcode, hash),
        (opEqualVerify, []), (opCheckSig, [])])
      (hlen : hash.length = 20) : Standard script .pubKeyHash [hash]
  | multiSig {script : CScript} {m n : ℕ} {keys : List Bytes}
      (hform : MultiSigForm script m keys n) (hcounts : WellCounted m keys n) :
      Standard script .multiSig ([UInt8.ofNat m] :: (keys ++ [[UInt8.ofNat n]]))

section Forms

variable {script : CScript} {m n : ℕ} {keys : List Bytes}

theorem isPayToScriptHash_iff : isPayToScriptHash script = true ↔
      ∃ hash : Bytes, hash.length = 20 ∧ script = opHash160 :: 0x14 :: (hash ++ [opEqual]) := by
  constructor
  · intro h
    simp only [isPayToScriptHash, Bool.and_eq_true, decide_eq_true_eq] at h
    obtain ⟨⟨⟨hlen, hfirst⟩, hsecond⟩, hlast⟩ := h
    obtain ⟨a, b, rest, rfl⟩ : ∃ a b rest, script = a :: b :: rest := by
      match script, hlen with
      | a :: b :: rest, _ => exact ⟨a, b, rest, rfl⟩
    have hrest : rest.length = 21 := by simpa using hlen
    have hend : rest.drop 20 = [opEqual] := by
      have hget : rest[20]? = some opEqual := hlast
      rw [drop_eq_getElem_cons (by omega), drop_eq_nil_of_le (by omega)]
      rw [getElem?_eq_getElem (by omega), some.injEq] at hget
      rw [hget]
    refine ⟨rest.take 20, by simp [hrest], ?_⟩
    rw [← hend, take_append_drop, some.inj hfirst, some.inj hsecond]
  · rintro ⟨hash, hlen, rfl⟩
    simp [isPayToScriptHash, hlen]

theorem head_of_isPayToScriptHash {e : UInt8 × Bytes} {ops : List (UInt8 × Bytes)}
    (h : isPayToScriptHash script = true) (hparse : parse script = some (e :: ops)) :
    e = (opHash160, []) := by
  obtain ⟨hash, -, rfl⟩ := isPayToScriptHash_iff.mp h
  rw [(parse_eq_cons_iff.mp hparse).2.1, getOp_of_lt (by decide)]

theorem decodeOpN_lt (opcode : UInt8) : decodeOpN opcode < 256 := by
  have hlt := opcode.toNat_lt
  rw [decodeOpN]
  split_ifs <;> omega

/-- The additional checks on a multisig form are those on its counts. -/
theorem wrongCounts_iff (hform : MultiSigForm script m keys n) :
    wrongCounts ([UInt8.ofNat m] :: (keys ++ [[UInt8.ofNat n]])) = true ↔
      ¬ WellCounted m keys n := by
  obtain ⟨opM, pushes, opN, -, -, -, -, rfl, -, rfl⟩ := hform
  have hm := decodeOpN_lt opM
  have hn := decodeOpN_lt opN
  rw [← cons_append, wrongCounts, getLastD_concat]
  simp [WellCounted, UInt8.lt_iff_toNat_lt, Nat.mod_eq_of_lt hm, Nat.mod_eq_of_lt hn]
  omega

theorem solver_of_multiSigForm (hform : MultiSigForm script m keys n) :
    solver script [] = (decide (WellCounted m keys n), .multiSig,
      [UInt8.ofNat m] :: (keys ++ [[UInt8.ofNat n]])) := by
  have hcounts := wrongCounts_iff hform
  obtain ⟨opM, pushes, opN, hparse, hM, hkeys, hN, rfl, rfl, rfl⟩ := hform
  have hnot : isPayToScriptHash script = false := by
    refine eq_false_of_ne_true fun h => ?_
    cases head_of_isPayToScriptHash h hparse
    exact absurd hM (by decide)
  have hpubKey : matchTemplate script [opPubKey, opCheckSig] = none := by
    refine eq_none_iff_forall_ne_some.mpr fun out h => ?_
    obtain ⟨opcode, key, hother, -⟩ := matchTemplate_pubKey_iff.mp h
    have hlen := congrArg List.length (some.inj (hother.symm.trans hparse))
    simp at hlen
  have hpubKeyHash : matchTemplate script
      [opDup, opHash160, opPubKeyHash, opEqualVerify, opCheckSig] = none := by
    refine eq_none_iff_forall_ne_some.mpr fun out h => ?_
    obtain ⟨opcode, hash, hother, -⟩ := matchTemplate_pubKeyHash_iff.mp h
    cases (List.cons.inj (some.inj (hother.symm.trans hparse))).1
    exact absurd hM (by decide)
  have hmulti := matchTemplate_multiSig_iff.mpr ⟨opM, pushes, opN, hparse, hM, hkeys, hN, rfl⟩
  rw [solver, hnot, if_neg (by decide), mTemplates]
  simp only [scanTemplates, hpubKey, hpubKeyHash, hmulti]
  by_cases hwell : WellCounted (decodeOpN opM) (pushes.map Prod.snd) (decodeOpN opN)
  · have hright := eq_false_of_ne_true (fun h => hcounts.mp h hwell)
    simp [hwell, hright]
  · simp [hwell, hcounts.mpr hwell]

theorem solver_of_standard {type : TxnOutType} {vSolutions : List Bytes}
    (h : Standard script type vSolutions) : solver script [] = (true, type, vSolutions) := by
  cases h with
  | @scriptHash hash hlen =>
    rw [solver, if_pos (isPayToScriptHash_iff.mpr ⟨hash, hlen, rfl⟩)]
    simp [← hlen]
  | @pubKey _ opcode key hparse hkey =>
    have hnot : isPayToScriptHash script = false := by
      refine eq_false_of_ne_true fun h => ?_
      cases head_of_isPayToScriptHash h hparse
      exact absurd hkey (by decide)
    have hmatch := matchTemplate_pubKey_iff.mpr ⟨opcode, key, hparse, hkey, rfl⟩
    rw [solver, hnot, if_neg (by decide), mTemplates]
    simp [scanTemplates, hmatch]
  | @pubKeyHash _ opcode hash hparse hlen =>
    have hnot : isPayToScriptHash script = false := by
      refine eq_false_of_ne_true fun h => ?_
      cases head_of_isPayToScriptHash h hparse
    have hpubKey : matchTemplate script [opPubKey, opCheckSig] = none := by
      refine eq_none_iff_forall_ne_some.mpr fun out h => ?_
      obtain ⟨_, _, hother, -⟩ := matchTemplate_pubKey_iff.mp h
      cases hother.symm.trans hparse
    have hmatch := matchTemplate_pubKeyHash_iff.mpr ⟨opcode, hash, hparse, hlen, rfl⟩
    rw [solver, hnot, if_neg (by decide), mTemplates]
    simp [scanTemplates, hpubKey, hmatch]
  | multiSig hform hcounts => rw [solver_of_multiSigForm hform, decide_eq_true hcounts]

/-- What the solver refuses has none of the forms, or a multisig form with wrong counts. -/
theorem solver_cases (script : CScript) : (∃ type vSolutions, Standard script type vSolutions) ∨
      (∃ m keys n, MultiSigForm script m keys n ∧ ¬ WellCounted m keys n) ∨
      solver script [] = (false, .nonStandard, []) := by
  by_cases hhash : isPayToScriptHash script = true
  · obtain ⟨hash, hlen, rfl⟩ := isPayToScriptHash_iff.mp hhash
    exact .inl ⟨_, _, .scriptHash hlen⟩
  rw [solver, if_neg hhash, mTemplates]
  rcases hpubKey : matchTemplate script [opPubKey, opCheckSig] with _ | out
  swap
  · obtain ⟨opcode, key, hparse, hkey, -⟩ := matchTemplate_pubKey_iff.mp hpubKey
    exact .inl ⟨_, _, .pubKey hparse hkey⟩
  rcases hpubKeyHash : matchTemplate script
      [opDup, opHash160, opPubKeyHash, opEqualVerify, opCheckSig] with _ | out
  swap
  · obtain ⟨opcode, hash, hparse, hlen, -⟩ := matchTemplate_pubKeyHash_iff.mp hpubKeyHash
    exact .inl ⟨_, _, .pubKeyHash hparse hlen⟩
  rcases hmulti : matchTemplate script
      [opSmallInteger, opPubKeys, opSmallInteger, opCheckMultiSig] with _ | out
  · exact .inr (.inr (by simp only [scanTemplates, hpubKey, hpubKeyHash, hmulti]))
  obtain ⟨opM, pushes, opN, hparse, hM, hkeys, hN, -⟩ := matchTemplate_multiSig_iff.mp hmulti
  have hform : MultiSigForm script (decodeOpN opM) (pushes.map Prod.snd) (decodeOpN opN) :=
    ⟨opM, pushes, opN, hparse, hM, hkeys, hN, rfl, rfl, rfl⟩
  by_cases hwell : WellCounted (decodeOpN opM) (pushes.map Prod.snd) (decodeOpN opN)
  · exact .inl ⟨_, _, .multiSig hform hwell⟩
  · exact .inr (.inl ⟨_, _, _, hform, hwell⟩)

end Forms

/-- The solver accepts the standard scripts, with their type and what they push, and refuses every
other script without leaving anything behind. -/
def SolvesExactly (script : CScript) : Prop :=
  ((solver script []).1 = true ↔ ∃ type vSolutions, Standard script type vSolutions) ∧
    (∀ type vSolutions, Standard script type vSolutions →
      (solver script []).2 = (type, vSolutions)) ∧
    ((solver script []).1 = false → (solver script []).2 = (.nonStandard, []))

/-- It is exact on every script but the multisig forms with wrong counts, whose type and solutions
stay behind. -/
theorem solvesExactly_iff (script : CScript) :
    SolvesExactly script ↔ ∀ m keys n, MultiSigForm script m keys n → WellCounted m keys n := by
  constructor
  · rintro ⟨-, -, hclear⟩ m keys n hform
    by_contra hwell
    have hsolver := solver_of_multiSigForm hform
    rw [decide_eq_false hwell] at hsolver
    rw [hsolver] at hclear
    cases (Prod.mk.inj (hclear rfl)).1
  · intro hcounts
    refine ⟨⟨fun htrue => ?_, ?_⟩, ?_, fun hfalse => ?_⟩
    · rcases solver_cases script with hstandard | ⟨m, keys, n, hform, hwell⟩ | hnone
      · exact hstandard
      · exact absurd (hcounts m keys n hform) hwell
      · rw [hnone] at htrue
        cases htrue
    · rintro ⟨type, vSolutions, hstandard⟩
      rw [solver_of_standard hstandard]
    · intro type vSolutions hstandard
      rw [solver_of_standard hstandard]
    · rcases solver_cases script with ⟨_, _, hstandard⟩ | ⟨m, keys, n, hform, hwell⟩ | hnone
      · rw [solver_of_standard hstandard] at hfalse
        cases hfalse
      · exact absurd (hcounts m keys n hform) hwell
      · rw [hnone]

/-- Two keys announced and none given: refused as a multisig script with two solutions. -/
theorem not_solvesExactly_keyless : ¬ SolvesExactly [op1, op1 + 1, opCheckMultiSig] := by
  rintro ⟨-, -, hclear⟩
  have hsolver : solver [op1, op1 + 1, opCheckMultiSig] [] = (false, .multiSig, [[1], [2]]) := by
    decide
  rw [hsolver] at hclear
  cases (Prod.mk.inj (hclear rfl)).1

end Primecoin
