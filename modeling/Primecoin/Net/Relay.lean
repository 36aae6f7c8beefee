import Primecoin.Net.Version

/-!
# Transactions kept for relay

A relayed transaction stays in `mapRelay` for a peer to fetch. Every relay adds an entry to
`vRelayExpiration`, and the first of its entries to run out removes the transaction.
-/

namespace Primecoin

open List

/-- A call of `RelayTransaction` and what `GetTime` returns during it: the seconds since 1970, from
which 15 minutes do not lead out of an `int64`. -/
structure RelayCall where
  now : ℤ
  hash : UInt256
  ss : Bytes

def msgTx : Int32 := 1

def RelayCall.inv (call : RelayCall) : CInv := ⟨msgTx, call.hash⟩

structure RelayMap where
  mapRelay : CInv → Option Bytes
  vRelayExpiration : List (ℤ × CInv)

namespace RelayMap

def expire (now : ℤ) (mapRelay : CInv → Option Bytes) : List (ℤ × CInv) → RelayMap
  | [] => ⟨mapRelay, []⟩
  | front :: rest =>
    if front.1 < now then expire now (Function.update mapRelay front.2 none) rest
    else ⟨mapRelay, front :: rest⟩

/-- `insert` leaves an entry that is there as it is. -/
def relayTransaction (r : RelayMap) (call : RelayCall) : RelayMap :=
  let r := expire call.now r.mapRelay r.vRelayExpiration
  { mapRelay := Function.update r.mapRelay call.inv ((r.mapRelay call.inv).or (some call.ss))
    vRelayExpiration := r.vRelayExpiration ++ [(call.now + 15 * 60, call.inv)] }

def run (calls : List RelayCall) : RelayMap :=
  calls.foldl relayTransaction ⟨fun _ => none, []⟩

/-- The most recent relay of `inv`, and every other one in the 15 minutes before that, was in the
15 minutes before `now`. -/
def Fresh (calls : List RelayCall) (now : ℤ) (inv : CInv) : Prop :=
  ∃ last ∈ calls, last.inv = inv ∧ ∀ call ∈ calls, call.inv = inv →
    call.now ≤ last.now ∧ (last.now - 15 * 60 ≤ call.now → now - 15 * 60 ≤ call.now)

theorem expire_spec {queue : List (ℤ × CInv)} (hqueue : queue.Pairwise fun a b => a.1 ≤ b.1)
    (now : ℤ) (mapRelay : CInv → Option Bytes) :
    (expire now mapRelay queue).vRelayExpiration = queue.filter (now ≤ ·.1) ∧
      ∀ inv, ((expire now mapRelay queue).mapRelay inv).isSome ↔
        (mapRelay inv).isSome ∧ ∀ e ∈ queue, e.2 = inv → now ≤ e.1 := by
  induction queue generalizing mapRelay with
  | nil => simp [expire]
  | cons front rest ih =>
    obtain ⟨hfront, hrest⟩ := pairwise_cons.mp hqueue
    rw [expire]
    split_ifs with hold
    · obtain ⟨hleft, hmap⟩ := ih hrest (Function.update mapRelay front.2 none)
      refine ⟨by rw [hleft, filter_cons_of_neg (by simpa using hold)], fun inv => ?_⟩
      rw [hmap, forall_mem_cons, Function.update_apply]
      split_ifs with hinv
      · simp [hinv, hold]
      · simp [Ne.symm hinv]
    · have hnew : ∀ e ∈ front :: rest, now ≤ e.1 :=
        forall_mem_cons.mpr ⟨not_lt.mp hold, fun e he => (not_lt.mp hold).trans (hfront e he)⟩
      refine ⟨(filter_eq_self.mpr (by simpa using hnew)).symm, fun inv => ?_⟩
      exact (and_iff_left fun e he _ => hnew e he).symm

variable {calls : List RelayCall} {now : ℤ}

theorem fresh_iff (hle : ∀ call ∈ calls, call.now ≤ now) {now' : ℤ} (hnow : now ≤ now')
    {inv : CInv} :
    Fresh calls now' inv ↔ Fresh calls now inv ∧ ∀ call ∈ calls, call.inv = inv →
      now - 15 * 60 ≤ call.now → now' - 15 * 60 ≤ call.now := by
  constructor
  · rintro ⟨last, hlast, hinv, hall⟩
    have hlater := hle last hlast
    refine ⟨⟨last, hlast, hinv, fun call hmem heq => ?_⟩, fun call hmem heq hrecent => ?_⟩
    · obtain ⟨hbefore, himp⟩ := hall call hmem heq
      exact ⟨hbefore, fun hrecent => by linarith [himp hrecent]⟩
    · exact (hall call hmem heq).2 (by linarith)
  · rintro ⟨⟨last, hlast, hinv, hall⟩, hnew⟩
    refine ⟨last, hlast, hinv, fun call hmem heq => ?_⟩
    obtain ⟨hbefore, himp⟩ := hall call hmem heq
    exact ⟨hbefore, fun hrecent => hnew call hmem heq (himp hrecent)⟩

structure Kept (calls : List RelayCall) (now : ℤ) (r : RelayMap) : Prop where
  sorted : calls.Pairwise fun a b => a.now ≤ b.now
  le : ∀ call ∈ calls, call.now ≤ now
  queue : r.vRelayExpiration =
    (calls.filter (now - 15 * 60 ≤ ·.now)).map fun call => (call.now + 15 * 60, call.inv)
  kept : ∀ inv, (r.mapRelay inv).isSome ↔ Fresh calls now inv

theorem Kept.relayTransaction {r : RelayMap} (h : Kept calls now r) {call : RelayCall}
    (hnow : now ≤ call.now) : Kept (calls ++ [call]) call.now (r.relayTransaction call) := by
  have hbefore : ∀ c ∈ calls, c.now ≤ call.now := fun c hc => (h.le c hc).trans hnow
  have hle : ∀ c ∈ calls ++ [call], c.now ≤ call.now := by
    simpa [or_imp, forall_and] using hbefore
  have hsorted : r.vRelayExpiration.Pairwise fun a b => a.1 ≤ b.1 := by
    rw [h.queue, pairwise_map]
    exact (h.sorted.sublist filter_sublist).imp fun hab => by simpa using hab
  obtain ⟨hqueue, hmap⟩ := expire_spec hsorted call.now r.mapRelay
  refine ⟨?_, hle, ?_, fun inv => ?_⟩
  · exact pairwise_append.mpr ⟨h.sorted, pairwise_singleton _ _, by simpa using hbefore⟩
  · rw [filter_append, map_append, RelayMap.relayTransaction]
    dsimp only
    rw [hqueue, h.queue, filter_map, filter_filter]
    congr 1
    · congr 1
      refine filter_congr fun c _ => ?_
      simp only [Function.comp_apply, ← Bool.decide_and]
      exact decide_eq_decide.mpr (by omega)
    · simp
  · rw [RelayMap.relayTransaction]
    dsimp only
    rw [Function.update_apply]
    split_ifs with hinv
    · exact iff_of_true (by simp) ⟨call, by simp, hinv.symm, fun c hc _ => ⟨hle c hc, id⟩⟩
    · have hcalls : Fresh (calls ++ [call]) call.now inv ↔ Fresh calls call.now inv := by
        simp [Fresh, or_and_right, exists_or, or_imp, forall_and, Ne.symm hinv]
      rw [hmap, h.kept, h.queue, hcalls, fresh_iff h.le hnow]
      refine and_congr_right fun _ => ?_
      simp only [forall_mem_map, mem_filter, decide_eq_true_eq, and_imp]
      exact forall₂_congr fun c _ =>
        ⟨fun hnew heq hrecent => by linarith [hnew hrecent heq],
          fun hnew hrecent heq => by linarith [hnew heq hrecent]⟩

theorem kept_run (hsorted : calls.Pairwise fun a b => a.now ≤ b.now) {call : RelayCall}
    (hcall : ∀ c ∈ calls, c.now ≤ call.now) :
    Kept (calls ++ [call]) call.now (run (calls ++ [call])) := by
  rw [run, foldl_append]
  induction calls using reverseRecOn generalizing call with
  | nil =>
    have hempty : Kept [] call.now ⟨fun _ => none, []⟩ := ⟨.nil, nofun, rfl, by simp [Fresh]⟩
    exact hempty.relayTransaction le_rfl
  | append_singleton calls last ih =>
    obtain ⟨hcalls, -, hlast⟩ := pairwise_append.mp hsorted
    rw [foldl_append]
    exact (ih hcalls fun c hc => hlast c hc last (mem_singleton_self _)).relayTransaction
      (hcall last (by simp))

theorem mapRelay_run (calls : List RelayCall) (call : RelayCall)
    (hsorted : (calls ++ [call]).Pairwise fun a b => a.now ≤ b.now) (inv : CInv) :
    ((run (calls ++ [call])).mapRelay inv).isSome ↔ Fresh (calls ++ [call]) call.now inv := by
  obtain ⟨hcalls, -, hcall⟩ := pairwise_append.mp hsorted
  exact (kept_run hcalls fun c hc => hcall c hc call (mem_singleton_self _)).kept inv

def renewed : List RelayCall := [⟨0, 7, []⟩, ⟨600, 7, []⟩]

theorem mapRelay_run_other :
    ((run (renewed ++ [⟨901, 8, []⟩])).mapRelay ⟨msgTx, 8⟩).isSome ↔
      Fresh (renewed ++ [⟨901, 8, []⟩]) 901 ⟨msgTx, 8⟩ :=
  mapRelay_run renewed ⟨901, 8, []⟩ (by decide) _

theorem mapRelay_run_renewed :
    (run (renewed ++ [⟨901, 8, []⟩])).mapRelay ⟨msgTx, 7⟩ = none ∧
      ∃ call ∈ renewed, call.inv = ⟨msgTx, 7⟩ ∧ 901 - 15 * 60 ≤ call.now := by
  decide

end RelayMap

end Primecoin
