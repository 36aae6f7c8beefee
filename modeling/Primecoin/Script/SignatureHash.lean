import Primecoin.Script.Build
import Primecoin.Transaction.Wire

/-!
# What a signature commits to

`SignatureHash` hashes a copy of the transaction in which the parts that the hash type leaves open
are blanked, with the script to be satisfied in place of the signature. Two such hashes are equal
exactly if the other parts are.
-/

namespace Primecoin

open Codec List Option CTxIn

def opCodeSeparator : UInt8 := 0xab

def sighashAll : Int32 := 1
def sighashNone : Int32 := 2
def sighashSingle : Int32 := 3
def sighashAnyoneCanPay : Int32 := 0x80

section Masks

variable (nIn : ℕ)

/-- Blanks the signatures, with the script in place of the one that is checked. -/
def blankSignatures (scriptCode : CScript) (vin : List CTxIn) : List CTxIn :=
  vin.mapIdx fun i txin => { txin with scriptSig := if i = nIn then scriptCode else [] }

/-- Lets the other inputs update at will. -/
def releaseSequences (vin : List CTxIn) : List CTxIn :=
  vin.mapIdx fun i txin => if i = nIn then txin else { txin with nSequence := 0 }

/-- The outputs up to the one beside the input, the others of them null. -/
def singleOutput (vout : List CTxOut) : List CTxOut :=
  List.replicate nIn CTxOut.null ++ (vout.drop nIn).take 1

def signedInputs (nHashType : Int32) (vin : List CTxIn) : List CTxIn :=
  if nHashType &&& sighashAnyoneCanPay ≠ 0 then (vin.drop nIn).take 1 else vin

end Masks

/-- The transaction that `SignatureHash` serializes; `none` where it returns one. -/
def signatureTx (scriptCode : CScript) (txTo : CTransaction) (nIn : ℕ) (nHashType : Int32) :
    Option CTransaction :=
  if txTo.vin.length ≤ nIn then none
  else
    let scriptCode := findAndDelete [opCodeSeparator] scriptCode
    let vin := blankSignatures nIn scriptCode txTo.vin
    let masked :=
      if nHashType &&& 0x1f = sighashNone then some (releaseSequences nIn vin, [])
      else if nHashType &&& 0x1f = sighashSingle then
        if txTo.vout.length ≤ nIn then none
        else some (releaseSequences nIn vin, singleOutput nIn txTo.vout)
      else some (vin, txTo.vout)
    masked.map fun (vin, vout) =>
      { txTo with
        vin := signedInputs nIn nHashType vin
        vout := vout }

def signatureMessage (scriptCode : CScript) (txTo : CTransaction) (nIn : ℕ) (nHashType : Int32) :
    Option Bytes :=
  (signatureTx scriptCode txTo nIn nHashType).map fun txTmp =>
    txTmp.serialize ++ leBytes 4 nHashType.toUInt32.toNat

def signatureHash (hash : Bytes → UInt256) (scriptCode : CScript) (txTo : CTransaction) (nIn : ℕ)
    (nHashType : Int32) : UInt256 :=
  ((signatureMessage scriptCode txTo nIn nHashType).map hash).getD 1

def commitsAll (nHashType : Int32) : Prop :=
  nHashType &&& 0x1f ≠ sighashNone ∧ nHashType &&& 0x1f ≠ sighashSingle

structure SameCommitments (nIn : ℕ) (nHashType : Int32) (scriptCode scriptCode' : CScript)
    (txTo txTo' : CTransaction) : Prop where
  nVersion : txTo.nVersion = txTo'.nVersion
  nLockTime : txTo.nLockTime = txTo'.nLockTime
  subscript : findAndDelete [opCodeSeparator] scriptCode =
    findAndDelete [opCodeSeparator] scriptCode'
  signedPrevout : txTo.vin[nIn]?.map prevout = txTo'.vin[nIn]?.map prevout
  signedSequence : txTo.vin[nIn]?.map nSequence = txTo'.vin[nIn]?.map nSequence
  prevouts : nHashType &&& sighashAnyoneCanPay = 0 → txTo.vin.map prevout = txTo'.vin.map prevout
  sequences : commitsAll nHashType → nHashType &&& sighashAnyoneCanPay = 0 →
    txTo.vin.map nSequence = txTo'.vin.map nSequence
  outputs : commitsAll nHashType → txTo.vout = txTo'.vout
  output : nHashType &&& 0x1f = sighashSingle → txTo.vout[nIn]? = txTo'.vout[nIn]?

instance (nHashType : Int32) : Decidable (commitsAll nHashType) :=
  inferInstanceAs (Decidable (_ ∧ _))

/-- The inputs before those that anyone can add are left out. -/
def maskedInputs (nIn : ℕ) (nHashType : Int32) (scriptCode : CScript) (vin : List CTxIn) :
    List CTxIn :=
  if commitsAll nHashType then blankSignatures nIn scriptCode vin
  else releaseSequences nIn (blankSignatures nIn scriptCode vin)

def maskedOutputs (nIn : ℕ) (nHashType : Int32) (vout : List CTxOut) : List CTxOut :=
  if nHashType &&& 0x1f = sighashNone then []
  else if nHashType &&& 0x1f = sighashSingle then singleOutput nIn vout else vout

section Masks

variable {nIn i : ℕ} {nHashType : Int32} {scriptCode scriptCode' : CScript}
  {vin vin' : List CTxIn} {vout vout' : List CTxOut}

theorem take_one_drop_inj {α : Type} {l l' : List α} {n : ℕ} :
    (l.drop n).take 1 = (l'.drop n).take 1 ↔ l[n]? = l'[n]? := by
  rw [take_one, take_one, head?_drop, head?_drop]
  cases l[n]? <;> cases l'[n]? <;> simp

theorem getElem?_maskedInputs :
    (maskedInputs nIn nHashType scriptCode vin)[i]? = vin[i]?.map fun txin =>
      { txin with
        scriptSig := if i = nIn then scriptCode else []
        nSequence := if commitsAll nHashType ∨ i = nIn then txin.nSequence else 0 } := by
  by_cases hall : commitsAll nHashType
  · simp [maskedInputs, blankSignatures, hall]
  · rw [maskedInputs, if_neg hall, releaseSequences, blankSignatures, getElem?_mapIdx,
      getElem?_mapIdx, Option.map_map]
    by_cases hi : i = nIn
    · simp [hi, Function.comp_def]
    · simp [hi, hall, Function.comp_def]

theorem length_maskedInputs : (maskedInputs nIn nHashType scriptCode vin).length = vin.length := by
  rw [maskedInputs]
  split_ifs
  · exact length_mapIdx
  · rw [releaseSequences, length_mapIdx]
    exact length_mapIdx

theorem getElem?_of_map_prevout (h : vin.map prevout = vin'.map prevout) (i : ℕ) :
    (vin[i]? = none ∧ vin'[i]? = none) ∨
      ∃ txin txin', vin[i]? = some txin ∧ vin'[i]? = some txin' ∧ txin.prevout = txin'.prevout := by
  have hi := congrArg (·[i]?) h
  simp only [getElem?_map] at hi
  cases hold : vin[i]? with
  | none =>
    rw [hold, map_none, eq_comm, map_eq_none_iff] at hi
    exact .inl ⟨rfl, hi⟩
  | some txin =>
    rw [hold, map_some, eq_comm, map_eq_some_iff] at hi
    obtain ⟨txin', hnew, hprevout⟩ := hi
    exact .inr ⟨txin, txin', rfl, hnew, hprevout.symm⟩

section Signed

variable (hlt : nIn < vin.length) (hlt' : nIn < vin'.length)

include hlt hlt'

theorem signed_eq_iff : (maskedInputs nIn nHashType scriptCode vin)[nIn]? =
        (maskedInputs nIn nHashType scriptCode' vin')[nIn]? ↔
      scriptCode = scriptCode' ∧ vin[nIn]?.map prevout = vin'[nIn]?.map prevout ∧
        vin[nIn]?.map nSequence = vin'[nIn]?.map nSequence := by
  rw [getElem?_maskedInputs, getElem?_maskedInputs, getElem?_eq_getElem hlt,
    getElem?_eq_getElem hlt']
  simp only [map_some, or_true, if_true, mk.injEq, some.injEq]
  tauto

theorem maskedInputs_eq_iff :
    maskedInputs nIn nHashType scriptCode vin = maskedInputs nIn nHashType scriptCode' vin' ↔
      scriptCode = scriptCode' ∧ vin.map prevout = vin'.map prevout ∧
        vin[nIn]?.map nSequence = vin'[nIn]?.map nSequence ∧
        (commitsAll nHashType → vin.map nSequence = vin'.map nSequence) := by
  constructor
  · intro h
    obtain ⟨hscript, -, hsequence⟩ := (signed_eq_iff hlt hlt').mp (congrArg (·[nIn]?) h)
    refine ⟨hscript, ext_getElem? fun i => ?_, hsequence, fun hall => ext_getElem? fun i => ?_⟩
    · have hprevout := congrArg (fun l => l[i]?.map prevout) h
      simp only [getElem?_maskedInputs, Option.map_map] at hprevout
      rwa [getElem?_map, getElem?_map]
    · have hsequence := congrArg (fun l => l[i]?.map nSequence) h
      simp only [getElem?_maskedInputs, hall, true_or, if_true, Option.map_map] at hsequence
      rwa [getElem?_map, getElem?_map]
  · rintro ⟨rfl, hprevouts, hsequence, hsequences⟩
    refine ext_getElem? fun i => ?_
    rw [getElem?_maskedInputs, getElem?_maskedInputs]
    rcases getElem?_of_map_prevout hprevouts i with ⟨hnone, hnone'⟩ | ⟨txin, txin', h, h', hprevout⟩
    · rw [hnone, hnone']
    · have heq : commitsAll nHashType ∨ i = nIn → txin.nSequence = txin'.nSequence := by
        rintro (hall | rfl)
        · have hi := congrArg (·[i]?) (hsequences hall)
          simpa [h, h'] using hi
        · simpa [h, h'] using hsequence
      rw [h, h', map_some, map_some, hprevout]
      by_cases hkept : commitsAll nHashType ∨ i = nIn
      · rw [heq hkept]
      · rw [if_neg hkept, if_neg hkept]

theorem signedInputs_eq_iff :
    signedInputs nIn nHashType (maskedInputs nIn nHashType scriptCode vin) =
        signedInputs nIn nHashType (maskedInputs nIn nHashType scriptCode' vin') ↔
      scriptCode = scriptCode' ∧ vin[nIn]?.map prevout = vin'[nIn]?.map prevout ∧
        vin[nIn]?.map nSequence = vin'[nIn]?.map nSequence ∧
        (nHashType &&& sighashAnyoneCanPay = 0 → vin.map prevout = vin'.map prevout ∧
            (commitsAll nHashType → vin.map nSequence = vin'.map nSequence)) := by
  rw [signedInputs, signedInputs]
  split_ifs with hany
  · rw [take_one_drop_inj, signed_eq_iff hlt hlt']
    simp only [hany, false_imp_iff, and_true]
  · rw [maskedInputs_eq_iff hlt hlt']
    rw [not_not] at hany
    simp only [hany, true_imp_iff]
    refine and_congr_right fun _ => ⟨fun ⟨hprevouts, h⟩ => ?_, fun h => ⟨h.2.2.1, h.2.1, h.2.2.2⟩⟩
    have hprevout := congrArg (·[nIn]?) hprevouts
    simp only [getElem?_map] at hprevout
    exact ⟨hprevout, h.1, hprevouts, h.2⟩

end Signed

theorem maskedOutputs_eq_iff :
    maskedOutputs nIn nHashType vout = maskedOutputs nIn nHashType vout' ↔
      (commitsAll nHashType → vout = vout') ∧
        (nHashType &&& 0x1f = sighashSingle → vout[nIn]? = vout'[nIn]?) := by
  rw [maskedOutputs, maskedOutputs, commitsAll]
  split_ifs with hnone hsingle
  · rw [hnone]
    simp [sighashNone, sighashSingle]
  · rw [singleOutput, singleOutput, append_cancel_left_eq, take_one_drop_inj]
    simp [hsingle]
  · simp [hnone, hsingle]

end Masks

structure SizedInputs (vin : List CTxIn) : Prop where
  length_lt : vin.length < 2 ^ 64
  scriptSig : ∀ txin ∈ vin, txin.scriptSig.length < 2 ^ 64

theorem sizedInputs_masked (nIn : ℕ) (nHashType : Int32) {scriptCode : CScript}
    {vin : List CTxIn} (hvin : vin.length < 2 ^ 64) (hscript : scriptCode.length < 2 ^ 64) :
    SizedInputs (maskedInputs nIn nHashType scriptCode vin) := by
  refine ⟨by rwa [length_maskedInputs], fun txin htxin => ?_⟩
  obtain ⟨i, hi⟩ := mem_iff_getElem?.mp htxin
  rw [getElem?_maskedInputs, map_eq_some_iff] at hi
  obtain ⟨txin, -, rfl⟩ := hi
  dsimp only
  split_ifs
  · exact hscript
  · decide

theorem SizedInputs.signedInputs {vin : List CTxIn} (h : SizedInputs vin) (nIn : ℕ)
    (nHashType : Int32) : SizedInputs (signedInputs nIn nHashType vin) := by
  rw [Primecoin.signedInputs]
  split_ifs
  · refine ⟨?_, fun txin htxin => ?_⟩
    · rw [length_take]
      omega
    · exact h.scriptSig txin (mem_of_mem_drop (mem_of_mem_take htxin))
  · exact h

section Commitments

variable {nIn : ℕ} {nHashType : Int32} {scriptCode scriptCode' : CScript}
  {txTo txTo' txTmp txTmp' : CTransaction}

theorem signatureTx_eq_some (h : signatureTx scriptCode txTo nIn nHashType = some txTmp) :
    nIn < txTo.vin.length ∧ (nHashType &&& 0x1f = sighashSingle → nIn < txTo.vout.length) ∧
      txTmp = { txTo with
        vin := signedInputs nIn nHashType
          (maskedInputs nIn nHashType (findAndDelete [opCodeSeparator] scriptCode) txTo.vin)
        vout := maskedOutputs nIn nHashType txTo.vout } := by
  simp only [signatureTx] at h
  rw [maskedInputs, maskedOutputs]
  split_ifs at h with hlt hnone hsingle hout
  · refine ⟨not_le.mp hlt, fun hsingle => ?_, ?_⟩
    · rw [hnone] at hsingle
      cases hsingle
    · rw [if_neg fun hall => hall.1 hnone, if_pos hnone]
      exact (some.inj h).symm
  · cases h
  · refine ⟨not_le.mp hlt, fun _ => not_le.mp hout, ?_⟩
    rw [if_neg fun hall => hall.2 hsingle, if_neg hnone, if_pos hsingle]
    exact (some.inj h).symm
  · refine ⟨not_le.mp hlt, fun h => absurd h hsingle, ?_⟩
    rw [if_pos ⟨hnone, hsingle⟩, if_neg hnone, if_neg hsingle]
    exact (some.inj h).symm

/-- The masked copies are equal exactly if the committed parts are. -/
theorem signatureTx_eq_iff (h : signatureTx scriptCode txTo nIn nHashType = some txTmp)
    (h' : signatureTx scriptCode' txTo' nIn nHashType = some txTmp') :
    txTmp = txTmp' ↔ SameCommitments nIn nHashType scriptCode scriptCode' txTo txTo' := by
  obtain ⟨hlt, -, rfl⟩ := signatureTx_eq_some h
  obtain ⟨hlt', -, rfl⟩ := signatureTx_eq_some h'
  rw [CTransaction.mk.injEq, signedInputs_eq_iff hlt hlt', maskedOutputs_eq_iff]
  constructor
  · rintro ⟨hversion, ⟨hscript, hprevout, hsequence, hothers⟩, ⟨houtputs, houtput⟩, hlock⟩
    exact ⟨hversion, hlock, hscript, hprevout, hsequence, fun hany => (hothers hany).1,
      fun hall hany => (hothers hany).2 hall, houtputs, houtput⟩
  · intro hsame
    exact ⟨hsame.nVersion, ⟨hsame.subscript, hsame.signedPrevout, hsame.signedSequence,
      fun hany => ⟨hsame.prevouts hany, (hsame.sequences · hany)⟩⟩,
      ⟨hsame.outputs, hsame.output⟩, hsame.nLockTime⟩

/-- What is hashed fits a `size_t` if the transaction and the script do. -/
theorem sized_of_signatureTx (h : signatureTx scriptCode txTo nIn nHashType = some txTmp)
    (hsized : txTo.Sized) (hscript : scriptCode.length < 2 ^ 64) : txTmp.Sized := by
  obtain ⟨-, hout, rfl⟩ := signatureTx_eq_some h
  have hvin := (sizedInputs_masked nIn nHashType hsized.vin ((length_findAndDelete_le
    [opCodeSeparator] scriptCode).trans_lt hscript)).signedInputs nIn nHashType
  rw [maskedOutputs]
  split_ifs with hnone hsingle
  · exact ⟨hvin.length_lt, hvin.scriptSig, Nat.two_pow_pos 64,
      fun _ hmem => absurd hmem not_mem_nil⟩
  · refine ⟨hvin.length_lt, hvin.scriptSig, ?_, fun txout hmem => ?_⟩
    · have hlen := hsized.vout
      have hlt := hout hsingle
      simp only [singleOutput, length_append, length_replicate, length_take, length_drop]
      omega
    · rcases mem_append.mp hmem with hnull | hlast
      · rw [eq_of_mem_replicate hnull]
        decide
      · exact hsized.scriptPubKey txout (mem_of_mem_drop (mem_of_mem_take hlast))
  · exact ⟨hvin.length_lt, hvin.scriptSig, hsized.vout, hsized.scriptPubKey⟩

theorem exists_signatureTx {hash : Bytes → UInt256}
    (h : signatureHash hash scriptCode txTo nIn nHashType ≠ 1) :
    ∃ txTmp, signatureTx scriptCode txTo nIn nHashType = some txTmp ∧
      signatureHash hash scriptCode txTo nIn nHashType =
        hash (txTmp.serialize ++ leBytes 4 nHashType.toUInt32.toNat) := by
  cases htx : signatureTx scriptCode txTo nIn nHashType with
  | none =>
    rw [signatureHash, signatureMessage, htx] at h
    exact absurd rfl h
  | some txTmp =>
    refine ⟨txTmp, rfl, ?_⟩
    rw [signatureHash, signatureMessage, htx]
    rfl

/-- Two signature hashes are equal exactly if the committed parts are. -/
theorem signatureHash_eq_iff (hash : Bytes → UInt256)
    (hinj : ∀ m m', signatureMessage scriptCode txTo nIn nHashType = some m →
      signatureMessage scriptCode' txTo' nIn nHashType = some m' → hash m = hash m' → m = m')
    (hsized : txTo.Sized) (hsized' : txTo'.Sized)
    (hscript : scriptCode.length < 2 ^ 64) (hscript' : scriptCode'.length < 2 ^ 64)
    (hone : signatureHash hash scriptCode txTo nIn nHashType ≠ 1)
    (hone' : signatureHash hash scriptCode' txTo' nIn nHashType ≠ 1) :
    signatureHash hash scriptCode txTo nIn nHashType =
        signatureHash hash scriptCode' txTo' nIn nHashType ↔
      SameCommitments nIn nHashType scriptCode scriptCode' txTo txTo' := by
  obtain ⟨txTmp, htx, hhash⟩ := exists_signatureTx hone
  obtain ⟨txTmp', htx', hhash'⟩ := exists_signatureTx hone'
  rw [hhash, hhash', ← signatureTx_eq_iff htx htx']
  constructor
  · intro heq
    have hmessage := hinj _ _ (by rw [signatureMessage, htx]; rfl)
      (by rw [signatureMessage, htx']; rfl) heq
    exact (unambiguous_transaction _ _ (sized_of_signatureTx htx hsized hscript)
      (sized_of_signatureTx htx' hsized' hscript') _ _ hmessage).1
  · rintro rfl
    rfl

end Commitments

namespace Sample

def payment (nValue : Int64) : CTransaction where
  nVersion := 1
  vin := [⟨⟨7, 0⟩, [], 0xffffffff⟩]
  vout := [⟨nValue, [op1]⟩]
  nLockTime := 0

def paymentHash : UInt256 :=
  0x95676462f97b6f3904096cd00e220e222f1d80e5981a88261a1754d0b5a3c584

theorem sized_payment (nValue : Int64) : (payment nValue).Sized := by
  have hone : 1 < 2 ^ 64 := by decide
  exact ⟨hone, forall_mem_singleton.mpr (by decide), hone, forall_mem_singleton.mpr hone⟩

end Sample

open Sample

/-- The outputs are not committed to: the value can change. -/
theorem signatureHash_eq_iff_payment :
    signatureHash (fun _ => paymentHash) [op1] (payment (5 * cent)) 0 sighashNone ≠ 1 ∧
    signatureHash (fun _ => paymentHash) [op1] (payment (4 * cent)) 0 sighashNone ≠ 1 ∧
    (signatureHash (fun _ => paymentHash) [op1] (payment (5 * cent)) 0 sighashNone =
        signatureHash (fun _ => paymentHash) [op1] (payment (4 * cent)) 0 sighashNone ↔
      SameCommitments 0 sighashNone [op1] [op1] (payment (5 * cent)) (payment (4 * cent))) := by
  have hsame : signatureMessage [op1] (payment (5 * cent)) 0 sighashNone =
      signatureMessage [op1] (payment (4 * cent)) 0 sighashNone := rfl
  refine ⟨by decide, by decide, signatureHash_eq_iff _ (fun m m' hm hm' _ => ?_) (sized_payment _)
    (sized_payment _) (by decide) (by decide) (by decide) (by decide)⟩
  rw [hsame, hm'] at hm
  exact (Option.some.inj hm).symm

end Primecoin
