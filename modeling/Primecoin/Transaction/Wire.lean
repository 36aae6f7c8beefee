import Primecoin.Codec.PrefixCode
import Primecoin.Transaction.Basic

/-!
# Transactions on the wire

A transaction can be told from what it serializes to, also with other bytes behind it, if the
sizes of its vectors fit the 64 bits of a compact size, as a `size_t` does.
-/

namespace Primecoin

open Codec

theorem unambiguous_writeCompactSize : Unambiguous writeCompactSize (· < 2 ^ 64) :=
  .of_readsBack fun _ => readsBack_readSize

theorem unambiguous_leBytes (w : ℕ) : Unambiguous (leBytes w) (· < 256 ^ w) :=
  .of_length (length_leBytes w) fun _ _ => leBytes_inj

theorem unambiguous_serializeScript :
    Unambiguous serializeScript fun script => script.length < 2 ^ 64 := by
  intro script script' h h' rest rest' heq
  rw [serializeScript, serializeScript, List.append_assoc, List.append_assoc] at heq
  obtain ⟨hlen, heq⟩ := unambiguous_writeCompactSize _ _ h h' _ _ heq
  exact List.append_inj heq hlen

theorem unambiguous_outPoint : Unambiguous COutPoint.serialize fun _ => True := by
  refine (unambiguous_leBytes 32).append (unambiguous_leBytes 4)
    (p := fun o : COutPoint => o.hash.toNat)
    (q := fun o => o.n.toNat) (fun o _ => ?_) (fun o _ => ?_) fun o o' hhash hn => ?_
  · exact o.hash.isLt
  · exact o.n.toNat_lt
  · cases o
    cases o'
    rw [COutPoint.mk.injEq]
    exact ⟨BitVec.eq_of_toNat_eq hhash, UInt32.toNat_inj.mp hn⟩

/-- The sizes of the vectors fit a `size_t`. -/
structure CTransaction.Sized (tx : CTransaction) : Prop where
  vin : tx.vin.length < 2 ^ 64
  scriptSig : ∀ txin ∈ tx.vin, txin.scriptSig.length < 2 ^ 64
  vout : tx.vout.length < 2 ^ 64
  scriptPubKey : ∀ txout ∈ tx.vout, txout.scriptPubKey.length < 2 ^ 64

open CTransaction

theorem unambiguous_txIn :
    Unambiguous CTxIn.serialize fun txin => txin.scriptSig.length < 2 ^ 64 := by
  have hfirst : Unambiguous (fun entry : COutPoint × CScript =>
      entry.1.serialize ++ serializeScript entry.2) fun entry => entry.2.length < 2 ^ 64 :=
    unambiguous_outPoint.append unambiguous_serializeScript (fun _ _ => trivial) (fun _ h => h)
      fun _ _ => Prod.ext
  refine hfirst.append (unambiguous_leBytes 4)
    (p := fun txin : CTxIn => (txin.prevout, txin.scriptSig))
    (q := fun txin => txin.nSequence.toNat) (fun _ h => h) (fun txin _ => ?_)
    fun txin txin' hentry hseq => ?_
  · exact txin.nSequence.toNat_lt
  · cases txin
    cases txin'
    rw [CTxIn.mk.injEq]
    exact ⟨(Prod.mk.inj hentry).1, (Prod.mk.inj hentry).2, UInt32.toNat_inj.mp hseq⟩

theorem unambiguous_txOut :
    Unambiguous CTxOut.serialize fun txout => txout.scriptPubKey.length < 2 ^ 64 := by
  refine (unambiguous_leBytes 8).append unambiguous_serializeScript
    (p := fun txout : CTxOut => txout.nValue.toUInt64.toNat) (q := fun txout => txout.scriptPubKey)
    (fun txout _ => ?_) (fun _ h => h) fun txout txout' hvalue hscript => ?_
  · exact txout.nValue.toUInt64.toNat_lt
  · cases txout
    cases txout'
    rw [CTxOut.mk.injEq]
    exact ⟨congrArg Int64.ofUInt64 (UInt64.toNat_inj.mp hvalue), hscript⟩

theorem unambiguous_transaction : Unambiguous serialize Sized := by
  have hvin := unambiguous_writeCompactSize.vector unambiguous_txIn
  have hvout := unambiguous_writeCompactSize.vector unambiguous_txOut
  have hversion : Unambiguous (fun nVersion : Int32 => leBytes 4 nVersion.toUInt32.toNat)
      fun _ => True :=
    .of_length (fun _ => length_leBytes 4 _) fun nVersion nVersion' _ _ h =>
      congrArg Int32.ofUInt32 (UInt32.toNat_inj.mp
        (leBytes_inj nVersion.toUInt32.toNat_lt nVersion'.toUInt32.toNat_lt h))
  -- the four parts from the left
  have hinputs := hversion.append hvin (p := Prod.fst) (q := Prod.snd)
    (P := fun entry : Int32 × List CTxIn => entry.2.length < 2 ^ 64 ∧
      ∀ txin ∈ entry.2, txin.scriptSig.length < 2 ^ 64)
    (fun _ _ => trivial) (fun _ h => h) fun _ _ => Prod.ext
  have houtputs := hinputs.append hvout (p := Prod.fst) (q := Prod.snd)
    (P := fun entry : (Int32 × List CTxIn) × List CTxOut =>
      (entry.1.2.length < 2 ^ 64 ∧ ∀ txin ∈ entry.1.2, txin.scriptSig.length < 2 ^ 64) ∧
        entry.2.length < 2 ^ 64 ∧ ∀ txout ∈ entry.2, txout.scriptPubKey.length < 2 ^ 64)
    (fun _ h => h.1) (fun _ h => h.2) fun _ _ => Prod.ext
  refine houtputs.append (unambiguous_leBytes 4)
    (p := fun tx : CTransaction => ((tx.nVersion, tx.vin), tx.vout))
    (q := fun tx => tx.nLockTime.toNat) (fun tx h => ⟨⟨h.vin, h.scriptSig⟩, h.vout, h.scriptPubKey⟩)
    (fun tx _ => tx.nLockTime.toNat_lt) fun tx tx' hentry hlock => ?_
  obtain ⟨hfirst, hvout⟩ := Prod.mk.inj hentry
  obtain ⟨hversion, hvin⟩ := Prod.mk.inj hfirst
  cases tx
  cases tx'
  rw [mk.injEq]
  exact ⟨hversion, hvin, hvout, UInt32.toNat_inj.mp hlock⟩

end Primecoin
