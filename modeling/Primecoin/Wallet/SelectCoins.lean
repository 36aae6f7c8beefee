import Primecoin.Data.Selection
import Primecoin.Wallet.Coins

/-!
# Coin selection

Coins below the target plus a cent are candidates for a subset whose sum comes close to the
target; of the larger coins only the smallest is kept. `approximateBestSubset` draws subsets at
random and keeps the best one so far.

The invariant of the search is `Search.Sound`: the totals are those of the flags beside them, and
the best subset reaches the target. It holds whatever the random bits are.
-/

namespace Primecoin

open Selection List

abbrev ValuedCoin := Int64 × COutPoint

def COutput.valued (output : COutput) : ValuedCoin := (output.nValue, output.outpoint)

open COutput

/-- An order of the coins, and a bit for every visit of a coin in the first pass of a repetition
of either search. -/
structure SelectRandom where
  shuffle : List COutput → List COutput
  perm_shuffle : ∀ vCoins, (shuffle vCoins).Perm vCoins
  insecureRand : Bool → ℕ → ℕ → Bool

/-- The variables of `ApproximateBestSubset`. -/
structure Search where
  vfIncluded : List Bool
  nTotal : Int64
  fReachedTarget : Bool
  vfBest : List Bool
  nBest : Int64
  deriving DecidableEq, Repr

namespace Search

variable (nTargetValue : Int64)

def add (n : Int64) (i : ℕ) (s : Search) : Search :=
  let nTotal := s.nTotal + n
  let vfIncluded := s.vfIncluded.set i true
  if nTargetValue ≤ nTotal then
    { vfIncluded := vfIncluded.set i false
      nTotal := nTotal - n
      fReachedTarget := true
      vfBest := if nTotal < s.nBest then vfIncluded else s.vfBest
      nBest := if nTotal < s.nBest then nTotal else s.nBest }
  else { s with vfIncluded := vfIncluded, nTotal := nTotal }

def firstPass (bits : ℕ → Bool) (vValue : List ValuedCoin) (s : Search) : Search :=
  vValue.zipIdx.foldl (fun s coin => if bits coin.2 then s.add nTargetValue coin.1.1 coin.2 else s)
    s

def secondPass (vValue : List ValuedCoin) (s : Search) : Search :=
  vValue.zipIdx.foldl (fun s coin =>
    if !s.vfIncluded.getD coin.2 false then s.add nTargetValue coin.1.1 coin.2 else s) s

def repetition (bits : ℕ → Bool) (vValue : List ValuedCoin) (s : Search) : Search :=
  let s := firstPass nTargetValue bits vValue { s with
      vfIncluded := replicate vValue.length false
      nTotal := 0
      fReachedTarget := false }
  if s.fReachedTarget then s else secondPass nTargetValue vValue s

def repeatedly (nTargetValue : Int64) (bits : ℕ → ℕ → Bool) (vValue : List ValuedCoin) :
    ℕ → ℕ → Search → Search
  | 0, _, s => s
  | left + 1, nRep, s =>
    if s.nBest = nTargetValue then s
    else repeatedly nTargetValue bits vValue left (nRep + 1)
      (repetition nTargetValue (bits nRep) vValue s)

def start (vValue : List ValuedCoin) (nTotalLower : Int64) : Search where
  vfIncluded := []
  nTotal := 0
  fReachedTarget := false
  vfBest := replicate vValue.length true
  nBest := nTotalLower

end Search

def approximateBestSubset (vValue : List ValuedCoin) (nTotalLower nTargetValue : Int64)
    (bits : ℕ → ℕ → Bool) (iterations : ℕ) : List Bool × Int64 :=
  let s := Search.repeatedly nTargetValue bits vValue iterations 0 (Search.start vValue nTotalLower)
  (s.vfBest, s.nBest)

/-- The coins sorted out by the first loop of `SelectCoinsMinConf`. -/
structure CoinSplit where
  vValue : List ValuedCoin
  nTotalLower : Int64
  coinLowestLarger : Int64 × Option COutPoint
  deriving DecidableEq, Repr

open CoinSplit

variable (isFromMe : CWalletTx → Bool)

def COutput.eligible (nConfMine nConfTheirs : Int32) (output : COutput) : Bool :=
  !(output.nDepth < if isFromMe output.tx then nConfMine else nConfTheirs)

namespace CoinSplit

def start : CoinSplit := ⟨[], 0, (Int64.maxValue, none)⟩

def insert (nTargetValue : Int64) (coin : ValuedCoin) (s : CoinSplit) : CoinSplit :=
  if coin.1 < nTargetValue + cent then
    { s with vValue := s.vValue ++ [coin], nTotalLower := s.nTotalLower + coin.1 }
  else if coin.1 < s.coinLowestLarger.1 then
    { s with coinLowestLarger := (coin.1, some coin.2) }
  else s

end CoinSplit

def splitCoins (isEligible : COutput → Bool) (nTargetValue : Int64) :
    List COutput → CoinSplit → Except ValuedCoin CoinSplit
  | [], s => .ok s
  | output :: vCoins, s =>
    if !isEligible output then splitCoins isEligible nTargetValue vCoins s
    else if output.nValue = nTargetValue then .error output.valued
    else splitCoins isEligible nTargetValue vCoins (s.insert nTargetValue output.valued)

def takeCoins (coins : List ValuedCoin) : Finset COutPoint × Int64 :=
  coins.foldl (fun result coin => (insert coin.2 result.1, result.2 + coin.1)) (∅, 0)

def searchSubset (vValue : List ValuedCoin) (nTotalLower nTargetValue : Int64)
    (insecureRand : Bool → ℕ → ℕ → Bool) : List Bool × Int64 :=
  let best := approximateBestSubset vValue nTotalLower nTargetValue (insecureRand false) 1000
  if best.2 ≠ nTargetValue ∧ nTargetValue + cent ≤ nTotalLower then
    approximateBestSubset vValue nTotalLower (nTargetValue + cent) (insecureRand true) 1000
  else best

def CoinSplit.select (nTargetValue : Int64) (insecureRand : Bool → ℕ → ℕ → Bool)
    (s : CoinSplit) : Option (Finset COutPoint × Int64) :=
  if s.nTotalLower = nTargetValue then some (takeCoins s.vValue)
  else if s.nTotalLower < nTargetValue then
    s.coinLowestLarger.2.map fun coin => takeCoins [(s.coinLowestLarger.1, coin)]
  else
    let vValue := s.vValue.insertionSort fun coin coin' => coin'.1 ≤ coin.1
    let best := searchSubset vValue s.nTotalLower nTargetValue insecureRand
    match s.coinLowestLarger.2 with
    | some coin =>
      if (best.2 ≠ nTargetValue ∧ best.2 < nTargetValue + cent) ∨ s.coinLowestLarger.1 ≤ best.2 then
        some (takeCoins [(s.coinLowestLarger.1, coin)])
      else some (takeCoins (pick vValue best.1))
    | none => some (takeCoins (pick vValue best.1))

def selectCoinsMinConf (nTargetValue : Int64)
    (nConfMine nConfTheirs : Int32) (vCoins : List COutput) (random : SelectRandom) :
    Option (Finset COutPoint × Int64) :=
  match splitCoins (eligible isFromMe nConfMine nConfTheirs) nTargetValue
      (random.shuffle vCoins) start with
  | .error coin => some (takeCoins [coin])
  | .ok s => s.select nTargetValue random.insecureRand

/-- `SelectCoins`: confirmed coins first, then less confirmed ones of others, then own
unconfirmed ones. -/
def CWallet.selectCoins {hash : Bytes → UInt256} (wallet : CWallet hash) (context : WalletContext)
    (nTargetValue : Int64) (random : Fin 3 → SelectRandom) :
    Option (Finset COutPoint × Int64) :=
  let vCoins := wallet.availableCoins context
  (selectCoinsMinConf context.isFromMe nTargetValue 1 6 vCoins (random 0)).or
    ((selectCoinsMinConf context.isFromMe nTargetValue 1 1 vCoins (random 1)).or
      (selectCoinsMinConf context.isFromMe nTargetValue 0 1 vCoins (random 2)))

def worth (coin : ValuedCoin) : ℤ := coin.1.toInt

/-- The coins have no negative value, and all of them together can be added up. -/
structure Summable (vValue : List ValuedCoin) : Prop where
  nonneg : ∀ coin ∈ vValue, 0 ≤ worth coin
  sum_lt : (vValue.map worth).sum < 2 ^ 63

namespace Search

/-- The totals are those of the flags beside them, and the best subset reaches the
target. -/
structure Sound (nTargetValue : Int64) (vValue : List ValuedCoin) (s : Search) : Prop where
  length_vfIncluded : s.vfIncluded.length = vValue.length
  nTotal : s.nTotal.toInt = weight worth vValue s.vfIncluded
  nBest : s.nBest.toInt = weight worth vValue s.vfBest
  reaches : nTargetValue.toInt ≤ s.nBest.toInt

section Sound

variable {nTargetValue : Int64} {vValue : List ValuedCoin} {s : Search} {i : ℕ} {coin : ValuedCoin}

theorem toInt_add_coin (hsum : Summable vValue) (hs : s.Sound nTargetValue vValue)
    (hcoin : vValue[i]? = some coin)
    (hfree : s.vfIncluded[i]? = some false) :
    (s.nTotal + coin.1).toInt = weight worth vValue (s.vfIncluded.set i true) := by
  have hweight := weight_set worth hcoin hfree
  have hle := weight_le worth hsum.nonneg (s.vfIncluded.set i true)
  have hnonneg := weight_nonneg worth hsum.nonneg (s.vfIncluded.set i true)
  have hlt := hsum.sum_lt
  have hcoins : s.nTotal.toInt + coin.1.toInt = weight worth vValue (s.vfIncluded.set i true) := by
    rw [hweight, hs.nTotal]
    rfl
  rw [Int64.toInt_add, hcoins, Int.bmod_eq_of_le (by omega) (by omega)]

theorem Sound.add (hsum : Summable vValue) (hs : s.Sound nTargetValue vValue)
    (hcoin : vValue[i]? = some coin)
    (hfree : s.vfIncluded[i]? = some false) :
    (s.add nTargetValue coin.1 i).Sound nTargetValue vValue := by
  have htotal := toInt_add_coin hsum hs hcoin hfree
  simp only [Search.add]
  split_ifs with hreached hbetter
  · refine ⟨?_, ?_, htotal, Int64.le_iff_toInt_le.mp hreached⟩
    · rw [set_set_false hfree]
      exact hs.length_vfIncluded
    · rw [set_set_false hfree, Int64.add_sub_cancel]
      exact hs.nTotal
  · refine ⟨?_, ?_, hs.nBest, hs.reaches⟩
    · rw [set_set_false hfree]
      exact hs.length_vfIncluded
    · rw [set_set_false hfree, Int64.add_sub_cancel]
      exact hs.nTotal
  · exact ⟨(length_set ..).trans hs.length_vfIncluded, htotal, hs.nBest, hs.reaches⟩

theorem getElem?_vfIncluded_add {n : Int64} {j : ℕ} (hij : i ≠ j) :
    (s.add nTargetValue n i).vfIncluded[j]? = s.vfIncluded[j]? := by
  simp only [Search.add]
  split_ifs <;> simp [hij]

/-- In the first pass the flags of the coins still to be visited are unset. -/
theorem Sound.firstPass (hsum : Summable vValue) (hs : s.Sound nTargetValue vValue)
    (hfresh : ∀ i, i < vValue.length → s.vfIncluded[i]? = some false) (bits : ℕ → Bool) :
    (s.firstPass nTargetValue bits vValue).Sound nTargetValue vValue := by
  refine (foldl_zipIdx_induction (fun k (s : Search) => s.Sound nTargetValue vValue ∧
    ∀ i, k ≤ i → i < vValue.length → s.vfIncluded[i]? = some false)
    ⟨hs, fun i _ => hfresh i⟩ fun i coin s hcoin hinv => ?_).1
  rw [Nat.zero_add] at hinv ⊢
  have hi : i < vValue.length := (List.getElem?_eq_some_iff.mp hcoin).1
  split_ifs
  · refine ⟨hinv.1.add hsum hcoin (hinv.2 i le_rfl hi), fun j hij hj => ?_⟩
    rw [getElem?_vfIncluded_add (Nat.ne_of_lt hij)]
    exact hinv.2 j (Nat.le_of_succ_le hij) hj
  · exact ⟨hinv.1, fun j hij hj => hinv.2 j (Nat.le_of_succ_le hij) hj⟩

theorem Sound.secondPass (hsum : Summable vValue) (hs : s.Sound nTargetValue vValue) :
    (s.secondPass nTargetValue vValue).Sound nTargetValue vValue := by
  refine foldl_zipIdx_induction (fun _ (s : Search) => s.Sound nTargetValue vValue) hs
    fun i coin s hcoin hinv => ?_
  rw [Nat.zero_add]
  split_ifs with hfree
  · have hi : i < s.vfIncluded.length :=
      hinv.length_vfIncluded ▸ (List.getElem?_eq_some_iff.mp hcoin).1
    refine hinv.add hsum hcoin ?_
    rw [getElem?_eq_getElem hi]
    simpa [getD, getElem?_eq_getElem hi] using hfree
  · exact hinv

theorem Sound.repetition (hsum : Summable vValue)
    (hbest : s.nBest.toInt = weight worth vValue s.vfBest)
    (hreaches : nTargetValue.toInt ≤ s.nBest.toInt) (bits : ℕ → Bool) :
    (s.repetition nTargetValue bits vValue).Sound nTargetValue vValue := by
  have hstart : Sound nTargetValue vValue { s with
      vfIncluded := replicate vValue.length false
      nTotal := 0
      fReachedTarget := false } :=
    ⟨length_replicate, (weight_replicate_false worth vValue _).symm, hbest, hreaches⟩
  have hfirst := hstart.firstPass hsum (fun i hi => getElem?_replicate_of_lt hi) bits
  simp only [Search.repetition]
  split_ifs
  · exact hfirst
  · exact hfirst.secondPass hsum

theorem repeatedly_best (hsum : Summable vValue) (bits : ℕ → ℕ → Bool) (left nRep : ℕ)
    (hbest : s.nBest.toInt = weight worth vValue s.vfBest)
    (hreaches : nTargetValue.toInt ≤ s.nBest.toInt) :
    (repeatedly nTargetValue bits vValue left nRep s).nBest.toInt =
        weight worth vValue (repeatedly nTargetValue bits vValue left nRep s).vfBest ∧
      nTargetValue.toInt ≤ (repeatedly nTargetValue bits vValue left nRep s).nBest.toInt := by
  induction left generalizing nRep s with
  | zero => exact ⟨hbest, hreaches⟩
  | succ left ih =>
    rw [repeatedly]
    split_ifs
    · exact ⟨hbest, hreaches⟩
    · have hsound := Sound.repetition hsum hbest hreaches (bits nRep)
      exact ih (nRep + 1) hsound.nBest hsound.reaches

end Sound

end Search

variable {coins : List ValuedCoin}

/-- A subset with its sum, which is at least the target if all coins together are. -/
theorem approximateBestSubset_spec {vValue : List ValuedCoin} {nTotalLower nTargetValue : Int64}
    (hsum : Summable vValue) (htotal : nTotalLower.toInt = (vValue.map worth).sum)
    (hreaches : nTargetValue.toInt ≤ nTotalLower.toInt) (bits : ℕ → ℕ → Bool) (iterations : ℕ) :
    (approximateBestSubset vValue nTotalLower nTargetValue bits iterations).2.toInt =
        weight worth vValue
          (approximateBestSubset vValue nTotalLower nTargetValue bits iterations).1 ∧
      nTargetValue.toInt ≤
        (approximateBestSubset vValue nTotalLower nTargetValue bits iterations).2.toInt := by
  refine Search.repeatedly_best hsum bits iterations 0 ?_ hreaches
  rw [Search.start, weight_replicate_true]
  exact htotal

theorem Summable.of_subperm {coins' : List ValuedCoin} (hsum : Summable coins)
    (hsub : coins'.Subperm coins) : Summable coins' := by
  refine ⟨fun coin hcoin => hsum.nonneg coin (hsub.subset hcoin), ?_⟩
  obtain ⟨l, hperm, hl⟩ := hsub
  have hle : (l.map worth).sum ≤ (coins.map worth).sum :=
    (hl.map worth).sum_le_sum fun x hx => by
      obtain ⟨coin, hcoin, rfl⟩ := mem_map.mp hx
      exact hsum.nonneg coin hcoin
  rw [← (hperm.map worth).sum_eq]
  exact lt_of_le_of_lt hle hsum.sum_lt

theorem foldl_takeCoins (hnonneg : ∀ coin ∈ coins, 0 ≤ worth coin)
    (set : Finset COutPoint) {n : Int64} (hn : 0 ≤ n.toInt)
    (hlt : n.toInt + (coins.map worth).sum < 2 ^ 63) :
    (coins.foldl (fun result coin => (insert coin.2 result.1, result.2 + coin.1)) (set, n)).1 =
        (coins.map Prod.snd).toFinset ∪ set ∧
      (coins.foldl (fun result coin => (insert coin.2 result.1, result.2 + coin.1))
        (set, n)).2.toInt = n.toInt + (coins.map worth).sum := by
  induction coins generalizing set n with
  | nil => simp
  | cons coin coins ih =>
    rw [map_cons, sum_cons] at hlt
    have hcoin : 0 ≤ coin.1.toInt := hnonneg coin mem_cons_self
    have hrest : 0 ≤ (coins.map worth).sum := sum_nonneg fun x hx => by
      obtain ⟨coin', hcoin', rfl⟩ := mem_map.mp hx
      exact hnonneg coin' (mem_cons_of_mem _ hcoin')
    have hworth : worth coin = coin.1.toInt := rfl
    have hadd : (n + coin.1).toInt = n.toInt + coin.1.toInt := by
      rw [Int64.toInt_add, Int.bmod_eq_of_le (by omega) (by omega)]
    obtain ⟨hset, hvalue⟩ := ih (fun coin' h => hnonneg coin' (mem_cons_of_mem _ h))
      (insert coin.2 set) (n := n + coin.1) (by omega) (by omega)
    rw [foldl_cons, map_cons, map_cons, sum_cons]
    refine ⟨?_, ?_⟩
    · rw [hset, toFinset_cons, Finset.union_insert, Finset.insert_union]
    · rw [hvalue, hadd, hworth, add_assoc]

theorem takeCoins_spec (hsum : Summable coins) :
    (takeCoins coins).1 = (coins.map Prod.snd).toFinset ∧
      (takeCoins coins).2.toInt = (coins.map worth).sum := by
  have hloop := foldl_takeCoins hsum.nonneg ∅ (n := 0) le_rfl (by
    have := hsum.sum_lt
    change 0 + _ < _
    omega)
  refine ⟨hloop.1.trans (Finset.union_empty _), hloop.2.trans ?_⟩
  exact zero_add _

/-- The coins are distinct ones of those given and worth `nValueRet`, at least the target. -/
structure IsSelection (nTargetValue : Int64) (vCoins : List COutput)
    (result : Finset COutPoint × Int64) : Prop where
  coins : ∃ coins : List ValuedCoin, (∀ coin ∈ coins, ∃ output ∈ vCoins, output.valued = coin) ∧
    (coins.map Prod.snd).Nodup ∧ result.1 = (coins.map Prod.snd).toFinset ∧
    result.2.toInt = (coins.map worth).sum
  reaches : nTargetValue.toInt ≤ result.2.toInt

section Select

variable {nTargetValue : Int64} {vCoins seen : List COutput} {s : CoinSplit} {output : COutput}

theorem isSelection_takeCoins {coins : List ValuedCoin} (hsub : coins.Subperm (vCoins.map valued))
    (hnodup : (vCoins.map outpoint).Nodup) (hsum : Summable (vCoins.map valued))
    (hreaches : nTargetValue.toInt ≤ (coins.map worth).sum) :
    IsSelection nTargetValue vCoins (takeCoins coins) ∧
      (takeCoins coins).2.toInt = (coins.map worth).sum := by
  obtain ⟨hset, hvalue⟩ := takeCoins_spec (hsum.of_subperm hsub)
  refine ⟨⟨⟨coins, fun coin hcoin => ?_, ?_, hset, hvalue⟩, hvalue ▸ hreaches⟩, hvalue⟩
  · obtain ⟨output, houtput, rfl⟩ := mem_map.mp (hsub.subset hcoin)
    exact ⟨output, houtput, rfl⟩
  · have hmap : (vCoins.map valued).map Prod.snd = vCoins.map outpoint := by
      rw [map_map]
      rfl
    obtain ⟨l, hperm, hl⟩ := hsub
    rw [← (hperm.map Prod.snd).nodup_iff]
    exact (hl.map Prod.snd).nodup (hmap ▸ hnodup)

/-- The coin is a candidate for the subset. -/
def COutput.lower (nTargetValue : Int64) (output : COutput) : Bool :=
  output.nValue < nTargetValue + cent

/-- What the first loop has made of the eligible coins it has seen. -/
structure CoinSplit.Holds (nTargetValue : Int64) (seen : List COutput) (s : CoinSplit) : Prop where
  vValue : s.vValue = (seen.filter (lower nTargetValue)).map valued
  nTotalLower : s.nTotalLower.toInt = (s.vValue.map worth).sum
  larger_none : s.coinLowestLarger.2 = none → s.coinLowestLarger.1 = Int64.maxValue ∧
    ∀ output ∈ seen, output.nValue < Int64.maxValue → output.lower nTargetValue = true
  larger_some : ∀ coin, s.coinLowestLarger.2 = some coin →
    ∃ output ∈ seen, output.valued = (s.coinLowestLarger.1, coin) ∧
      output.lower nTargetValue = false

theorem CoinSplit.holds_start : start.Holds nTargetValue [] :=
  ⟨rfl, rfl, fun _ => ⟨rfl, fun _ h => absurd h not_mem_nil⟩, fun _ h => nomatch h⟩

theorem sum_worth_nonneg {coins : List ValuedCoin} (hsum : Summable coins) :
    0 ≤ (coins.map worth).sum :=
  sum_nonneg fun x hx => by
    obtain ⟨coin, hcoin, rfl⟩ := mem_map.mp hx
    exact hsum.nonneg coin hcoin

theorem nValue_le_sum (hsum : Summable (vCoins.map valued))
    (h : output ∈ vCoins) : output.nValue.toInt ≤ ((vCoins.map valued).map worth).sum := by
  refine single_le_sum (fun x hx => ?_) _ (mem_map_of_mem (mem_map_of_mem h))
  obtain ⟨coin, hcoin, rfl⟩ := mem_map.mp hx
  exact hsum.nonneg coin hcoin

theorem filter_lower_concat_of_not (h : output.lower nTargetValue = false) :
    (seen ++ [output]).filter (lower nTargetValue) = seen.filter (lower nTargetValue) := by
  rw [filter_append, filter_cons_of_neg (by rw [h]; exact Bool.false_ne_true),
    filter_nil, append_nil]

theorem CoinSplit.Holds.insert_lower (hs : s.Holds nTargetValue seen)
    (hsum : Summable ((seen ++ [output]).map valued))
    (hlower : output.lower nTargetValue = true) :
    (s.insert nTargetValue output.valued).Holds nTargetValue (seen ++ [output]) := by
  have hvalues : s.vValue ++ [output.valued] =
      ((seen ++ [output]).filter (lower nTargetValue)).map valued := by
    rw [filter_append, filter_cons_of_pos hlower, filter_nil, map_append, hs.vValue]
    rfl
  have hcoins : Summable (s.vValue ++ [output.valued]) := by
    rw [hvalues]
    exact hsum.of_subperm (filter_sublist.map _).subperm
  have hlt := hcoins.sum_lt
  have hnonneg := sum_worth_nonneg hcoins
  have htotal : ((s.vValue ++ [output.valued]).map worth).sum =
      s.nTotalLower.toInt + output.nValue.toInt := by
    rw [map_append, sum_append, map_singleton, sum_singleton, hs.nTotalLower]
    rfl
  have hadd : (s.nTotalLower + output.nValue).toInt =
      ((s.vValue ++ [output.valued]).map worth).sum := by
    rw [htotal] at hlt hnonneg ⊢
    rw [Int64.toInt_add, Int.bmod_eq_of_le (by omega) (by omega)]
  have hinsert : s.insert nTargetValue output.valued = _ := if_pos (of_decide_eq_true hlower)
  rw [hinsert]
  refine ⟨hvalues, hadd, fun hnone => ⟨(hs.larger_none hnone).1, fun output' h hmax => ?_⟩,
    fun coin hcoin => ?_⟩
  · rcases mem_append.mp h with h | h
    · exact (hs.larger_none hnone).2 output' h hmax
    · exact mem_singleton.mp h ▸ hlower
  · obtain ⟨larger, hlarger, heq, hle⟩ := hs.larger_some coin hcoin
    exact ⟨larger, mem_append_left _ hlarger, heq, hle⟩

theorem CoinSplit.Holds.insert_larger (hs : s.Holds nTargetValue seen)
    (hlarger : output.lower nTargetValue = false) :
    (s.insert nTargetValue output.valued).Holds nTargetValue (seen ++ [output]) := by
  have hmem : output ∈ seen ++ [output] := mem_append_right _ mem_cons_self
  have hvalues : s.vValue = ((seen ++ [output]).filter (lower nTargetValue)).map valued := by
    rw [filter_lower_concat_of_not hlarger]
    exact hs.vValue
  have hinsert : s.insert nTargetValue output.valued = _ := if_neg (of_decide_eq_false hlarger)
  rw [hinsert]
  split_ifs with hlowest
  · refine ⟨hvalues, hs.nTotalLower, fun hnone => absurd hnone (Option.some_ne_none _),
      fun coin hcoin => ?_⟩
    cases hcoin
    exact ⟨output, hmem, rfl, hlarger⟩
  · refine ⟨hvalues, hs.nTotalLower,
      fun hnone => ⟨(hs.larger_none hnone).1, fun output' h hmax => ?_⟩,
      fun coin hcoin => ?_⟩
    · -- without a larger coin the bound is the largest integer
      rcases mem_append.mp h with h | h
      · exact (hs.larger_none hnone).2 output' h hmax
      · rw [mem_singleton.mp h, ← (hs.larger_none hnone).1] at hmax
        exact absurd hmax hlowest
    · obtain ⟨larger, hseen, heq, hle⟩ := hs.larger_some coin hcoin
      exact ⟨larger, mem_append_left _ hseen, heq, hle⟩

theorem CoinSplit.Holds.insert (hs : s.Holds nTargetValue seen)
    (hsum : Summable ((seen ++ [output]).map valued)) :
    (s.insert nTargetValue output.valued).Holds nTargetValue (seen ++ [output]) := by
  cases hlower : output.lower nTargetValue with
  | true => exact hs.insert_lower hsum hlower
  | false => exact hs.insert_larger hlower

variable {isEligible : COutput → Bool}

theorem splitCoins_error {coin : ValuedCoin}
    (h : splitCoins isEligible nTargetValue vCoins s = .error coin) :
    ∃ output ∈ vCoins.filter isEligible, output.valued = coin ∧ output.nValue = nTargetValue := by
  induction vCoins generalizing s with
  | nil => cases h
  | cons output vCoins ih =>
    rw [splitCoins] at h
    split_ifs at h with heligible hexact
    · obtain ⟨output', hmem, hcoin⟩ := ih h
      exact ⟨output', mem_filter.mpr ⟨mem_cons_of_mem _ (mem_filter.mp hmem).1,
        (mem_filter.mp hmem).2⟩, hcoin⟩
    · cases h
      have hkeep : isEligible output = true := by simpa using heligible
      exact ⟨output, mem_filter.mpr ⟨mem_cons_self, hkeep⟩, rfl, hexact⟩
    · obtain ⟨output', hmem, hcoin⟩ := ih h
      exact ⟨output', mem_filter.mpr ⟨mem_cons_of_mem _ (mem_filter.mp hmem).1,
        (mem_filter.mp hmem).2⟩, hcoin⟩

theorem splitCoins_ok {s' : CoinSplit} (hs : s.Holds nTargetValue seen)
    (hsum : Summable ((seen ++ vCoins.filter isEligible).map valued))
    (h : splitCoins isEligible nTargetValue vCoins s = .ok s') :
    s'.Holds nTargetValue (seen ++ vCoins.filter isEligible) := by
  induction vCoins generalizing s seen with
  | nil =>
    cases h
    rwa [filter_nil, append_nil]
  | cons output vCoins ih =>
    rw [splitCoins] at h
    split_ifs at h with heligible hexact
    · rw [filter_cons_of_neg (by simpa using heligible)] at hsum ⊢
      exact ih hs hsum h
    · rw [filter_cons_of_pos (by simpa using heligible), append_cons] at hsum ⊢
      refine ih (hs.insert ?_) hsum h
      rw [map_append] at hsum
      exact hsum.of_subperm (sublist_append_left _ _).subperm

theorem toInt_add_cent (hpos : 0 < nTargetValue.toInt)
    (hlt : nTargetValue.toInt + cent.toInt < 2 ^ 63) :
    (nTargetValue + cent).toInt = nTargetValue.toInt + cent.toInt := by
  have hcent : cent.toInt = 1000000 := by decide
  rw [Int64.toInt_add, Int.bmod_eq_of_le (by omega) (by omega)]

theorem searchSubset_spec {vValue : List ValuedCoin} {nTotalLower : Int64}
    (hsum : Summable vValue) (htotal : nTotalLower.toInt = (vValue.map worth).sum)
    (hreaches : nTargetValue.toInt ≤ nTotalLower.toInt) (hpos : 0 < nTargetValue.toInt)
    (insecureRand : Bool → ℕ → ℕ → Bool) {best : List Bool × Int64}
    (hbest : searchSubset vValue nTotalLower nTargetValue insecureRand = best)
    (hlt : nTargetValue.toInt + cent.toInt < 2 ^ 63) :
    best.2.toInt = weight worth vValue best.1 ∧ nTargetValue.toInt ≤ best.2.toInt ∧
      (best.2 = nTargetValue ∨ nTotalLower.toInt < nTargetValue.toInt + cent.toInt ∨
        nTargetValue.toInt + cent.toInt ≤ best.2.toInt) := by
  have hcent : (nTargetValue + cent).toInt = nTargetValue.toInt + cent.toInt :=
    toInt_add_cent hpos hlt
  have hfirst := approximateBestSubset_spec hsum htotal hreaches (insecureRand false) 1000
  simp only [searchSubset] at hbest
  split_ifs at hbest with hagain
  · have hle : (nTargetValue + cent).toInt ≤ nTotalLower.toInt :=
      Int64.le_iff_toInt_le.mp hagain.2
    have hsecond := approximateBestSubset_spec hsum htotal hle (insecureRand true) 1000
    rw [hbest, hcent] at hsecond
    have hnonneg : 0 ≤ cent.toInt := by decide
    exact ⟨hsecond.1, by omega, Or.inr (Or.inr hsecond.2)⟩
  · rw [hbest] at hfirst hagain
    refine ⟨hfirst.1, hfirst.2, ?_⟩
    rw [not_and_or, not_not, Int64.le_iff_toInt_le, hcent, not_le] at hagain
    exact hagain.imp_right Or.inl

def totalWorth (vCoins : List COutput) : ℤ := ((vCoins.map valued).map worth).sum

/-- The excess over the target is a cent or more, unless the coins leave no choice. -/
def Spares (nTargetValue : Int64) (vCoins : List COutput) (nValueRet : ℤ) : Prop :=
  nTargetValue.toInt < nValueRet → nValueRet < nTargetValue.toInt + cent.toInt →
    (∀ output ∈ vCoins, output.nValue.toInt < nTargetValue.toInt + cent.toInt) ∧
      totalWorth vCoins < nTargetValue.toInt + cent.toInt

/-- No coin is worth the bound that the search for the smallest larger coin starts with. -/
def Findable (vCoins : List COutput) : Prop := ∀ output ∈ vCoins, output.nValue < Int64.maxValue

def Chosen (nTargetValue : Int64) (vCoins : List COutput) (result : Finset COutPoint × Int64) :
    Prop :=
  IsSelection nTargetValue vCoins result ∧
    (Findable vCoins → Spares nTargetValue vCoins result.2.toInt)

/-- What a successful selection returns. -/
structure Selected (nTargetValue : Int64) (vCoins : List COutput)
    (result : Finset COutPoint × Int64) : Prop where
  selection : IsSelection nTargetValue vCoins result
  spares : Spares nTargetValue vCoins result.2.toInt

section Outcome

variable (hnodup : (vCoins.map outpoint).Nodup)
  (hsum : Summable (vCoins.map valued)) (hpos : 0 < nTargetValue.toInt)
  (hlt : nTargetValue.toInt + cent.toInt < 2 ^ 63)

include hnodup hsum in
theorem chosen_takeCoins {coins : List ValuedCoin} (hsub : coins.Subperm (vCoins.map valued))
    (hreaches : nTargetValue.toInt ≤ (coins.map worth).sum)
    (hspares : Findable vCoins → Spares nTargetValue vCoins (coins.map worth).sum) :
    Chosen nTargetValue vCoins (takeCoins coins) := by
  obtain ⟨hselection, hvalue⟩ := isSelection_takeCoins hsub hnodup hsum hreaches
  exact ⟨hselection, hvalue ▸ hspares⟩

include hnodup hsum hpos hlt in
theorem chosen_larger (hs : s.Holds nTargetValue vCoins) {coin : COutPoint}
    (hcoin : s.coinLowestLarger.2 = some coin) :
    Chosen nTargetValue vCoins (takeCoins [(s.coinLowestLarger.1, coin)]) ∧
      nTargetValue.toInt ≤ totalWorth vCoins := by
  obtain ⟨output, hmem, heq, hlarger⟩ := hs.larger_some coin hcoin
  have hle : nTargetValue.toInt + cent.toInt ≤ output.nValue.toInt := by
    rw [← toInt_add_cent hpos hlt, ← Int64.le_iff_toInt_le, ← Int64.not_lt]
    exact of_decide_eq_false hlarger
  have hcent : 0 ≤ cent.toInt := by decide
  have hworth : ([(s.coinLowestLarger.1, coin)].map worth).sum = output.nValue.toInt := by
    rw [← heq, map_singleton, sum_singleton]
    rfl
  have hsub : Subperm [(s.coinLowestLarger.1, coin)] (vCoins.map valued) := by
    rw [← heq]
    exact singleton_subperm_iff.mpr (mem_map_of_mem hmem)
  refine ⟨chosen_takeCoins hnodup hsum hsub (by omega) fun _ _ hexcess => ?_, ?_⟩
  · omega
  · have := nValue_le_sum hsum hmem
    rw [totalWorth]
    omega

theorem vValue_sublist (hs : s.Holds nTargetValue vCoins) :
    s.vValue.Sublist (vCoins.map valued) := by
  rw [hs.vValue]
  exact filter_sublist.map _

include hsum in
theorem nTotalLower_le (hs : s.Holds nTargetValue vCoins) :
    s.nTotalLower.toInt ≤ totalWorth vCoins := by
  rw [hs.nTotalLower]
  refine ((vValue_sublist hs).map worth).sum_le_sum fun x hx => ?_
  obtain ⟨coin, hcoin, rfl⟩ := mem_map.mp hx
  exact hsum.nonneg coin hcoin

theorem nTotalLower_eq (hs : s.Holds nTargetValue vCoins) (hnone : s.coinLowestLarger.2 = none)
    (hmax : Findable vCoins) : s.nTotalLower.toInt = totalWorth vCoins := by
  have hall : vCoins.filter (lower nTargetValue) = vCoins :=
    filter_eq_self.mpr fun output h => (hs.larger_none hnone).2 output h (hmax output h)
  rw [hs.nTotalLower, hs.vValue, hall, totalWorth]

include hnodup hsum hpos hlt in
theorem chosen_subset (hs : s.Holds nTargetValue vCoins)
    (hreaches : nTargetValue.toInt ≤ s.nTotalLower.toInt)
    (insecureRand : Bool → ℕ → ℕ → Bool) {vValue : List ValuedCoin}
    (hperm : vValue.Perm s.vValue) {best : List Bool × Int64}
    (hbest : searchSubset vValue s.nTotalLower nTargetValue insecureRand = best)
    (hprefer : s.coinLowestLarger.2 = none ∨
      ¬(best.2 ≠ nTargetValue ∧ best.2 < nTargetValue + cent)) :
    Chosen nTargetValue vCoins (takeCoins (pick vValue best.1)) := by
  have hsub : vValue.Subperm (vCoins.map valued) :=
    hperm.subperm.trans (vValue_sublist hs).subperm
  have htotal : s.nTotalLower.toInt = (vValue.map worth).sum := by
    rw [(hperm.map worth).sum_eq]
    exact hs.nTotalLower
  obtain ⟨hweight, hle, hreserve⟩ :=
    searchSubset_spec (hsum.of_subperm hsub) htotal hreaches hpos insecureRand hbest hlt
  have hvalue : ((pick vValue best.1).map worth).sum = best.2.toInt := hweight.symm
  refine chosen_takeCoins hnodup hsum ((pick_sublist vValue best.1).subperm.trans hsub)
    (hvalue ▸ hle) ?_
  rw [hvalue]
  intro hmax hmore hexcess
  -- the target is missed by less than a cent, so no larger coin was there to be preferred
  have hmissed : best.2 ≠ nTargetValue := by
    rintro heq
    rw [heq] at hmore
    exact lt_irrefl _ hmore
  have hclose : best.2 < nTargetValue + cent := by
    rw [Int64.lt_iff_toInt_lt, toInt_add_cent hpos hlt]
    exact hexcess
  have hnone : s.coinLowestLarger.2 = none := hprefer.resolve_right fun h => h ⟨hmissed, hclose⟩
  have hall := nTotalLower_eq hs hnone hmax
  refine ⟨fun output houtput => ?_, ?_⟩
  · rw [← toInt_add_cent hpos hlt, ← Int64.lt_iff_toInt_lt]
    exact of_decide_eq_true ((hs.larger_none hnone).2 output houtput (hmax output houtput))
  · rcases hreserve with heq | hfew | hmany
    · exact absurd heq hmissed
    · rwa [hall] at hfew
    · omega

include hnodup hsum hpos hlt in
theorem CoinSplit.select_spec (hs : s.Holds nTargetValue vCoins)
    (insecureRand : Bool → ℕ → ℕ → Bool) :
    (Findable vCoins → ((s.select nTargetValue insecureRand).isSome = true ↔
        nTargetValue.toInt ≤ totalWorth vCoins)) ∧
      ∀ result, s.select nTargetValue insecureRand = some result →
        Chosen nTargetValue vCoins result := by
  have hle := nTotalLower_le hsum hs
  rw [select]
  split_ifs with hexact hfew
  · -- all candidates together are worth the target
    have hworth : (s.vValue.map worth).sum = nTargetValue.toInt := by
      rw [← hs.nTotalLower, hexact]
    refine ⟨fun _ => iff_of_true rfl (hexact ▸ hle), fun result hresult => ?_⟩
    cases hresult
    refine chosen_takeCoins hnodup hsum (vValue_sublist hs).subperm hworth.ge fun _ hmore => ?_
    rw [hworth] at hmore
    exact absurd hmore (lt_irrefl _)
  · -- they are not enough, so it takes a larger coin
    rw [Int64.lt_iff_toInt_lt] at hfew
    cases hcoin : s.coinLowestLarger.2 with
    | none =>
      refine ⟨fun hmax => iff_of_false Bool.false_ne_true ?_, fun result hresult => nomatch hresult⟩
      rw [← nTotalLower_eq hs hcoin hmax]
      exact not_le.mpr hfew
    | some coin =>
      obtain ⟨hselected, henough⟩ := chosen_larger hnodup hsum hpos hlt hs hcoin
      refine ⟨fun _ => iff_of_true rfl henough, fun result hresult => ?_⟩
      cases hresult
      exact hselected
  · have hreaches : nTargetValue.toInt ≤ s.nTotalLower.toInt := by
      rw [Int64.lt_iff_toInt_lt, not_lt] at hfew
      exact hfew
    have hperm := perm_insertionSort (fun coin coin' : ValuedCoin => coin'.1 ≤ coin.1) s.vValue
    have hsubset : ∀ best, searchSubset (s.vValue.insertionSort fun coin coin' => coin'.1 ≤ coin.1)
        s.nTotalLower nTargetValue insecureRand = best → _ →
        Chosen nTargetValue vCoins (takeCoins (pick _ best.1)) := fun best hbest hprefer =>
      chosen_subset hnodup hsum hpos hlt hs hreaches insecureRand hperm hbest hprefer
    cases hcoin : s.coinLowestLarger.2 with
    | none =>
      refine ⟨fun _ => iff_of_true rfl (hreaches.trans hle), fun result hresult => ?_⟩
      cases hresult
      exact hsubset _ rfl (Or.inl hcoin)
    | some coin =>
      dsimp only
      split_ifs with hprefer
      · refine ⟨fun _ => iff_of_true rfl (hreaches.trans hle), fun result hresult => ?_⟩
        cases hresult
        exact (chosen_larger hnodup hsum hpos hlt hs hcoin).1
      · refine ⟨fun _ => iff_of_true rfl (hreaches.trans hle), fun result hresult => ?_⟩
        cases hresult
        exact hsubset _ rfl (Or.inr (not_or.mp hprefer).1)

end Outcome

theorem summable_of_pos (hvalue : ∀ output ∈ vCoins, 0 < output.nValue)
    (hsum : totalWorth vCoins < 2 ^ 63) : Summable (vCoins.map valued) := by
  refine ⟨fun coin hcoin => ?_, hsum⟩
  obtain ⟨output, houtput, rfl⟩ := mem_map.mp hcoin
  exact (Int64.lt_iff_toInt_lt.mp (hvalue output houtput)).le

theorem Chosen.of_perm {vCoins' : List COutput} (hperm : vCoins'.Perm vCoins)
    {result : Finset COutPoint × Int64} (h : Chosen nTargetValue vCoins' result) :
    Chosen nTargetValue vCoins result := by
  obtain ⟨⟨⟨coins, hcoins, hrest⟩, hreaches⟩, hspares⟩ := h
  have hworth : totalWorth vCoins' = totalWorth vCoins := ((hperm.map _).map worth).sum_eq
  refine ⟨⟨⟨coins, fun coin hcoin => ?_, hrest⟩, hreaches⟩, fun hmax hmore hexcess => ?_⟩
  · obtain ⟨output, houtput, rfl⟩ := hcoins coin hcoin
    exact ⟨output, hperm.subset houtput, rfl⟩
  · obtain ⟨hlower, hfew⟩ := hspares (fun output h => hmax output (hperm.subset h)) hmore hexcess
    exact ⟨fun output houtput => hlower output (hperm.symm.subset houtput), hworth ▸ hfew⟩

/-- If the sums fit into an `int64`, a selection consists of distinct eligible coins worth at least
the target. -/
theorem selectCoinsMinConf_chosen (isFromMe : CWalletTx → Bool) (nConfMine nConfTheirs : Int32)
    (random : SelectRandom) (hnodup : (vCoins.map outpoint).Nodup)
    (hvalue : ∀ output ∈ vCoins, 0 < output.nValue) (htarget : 0 < nTargetValue)
    (hsum : totalWorth (vCoins.filter (eligible isFromMe nConfMine nConfTheirs)) < 2 ^ 63)
    (hlt : nTargetValue.toInt + cent.toInt < 2 ^ 63) :
    (Findable (vCoins.filter (eligible isFromMe nConfMine nConfTheirs)) →
      ((selectCoinsMinConf isFromMe nTargetValue nConfMine nConfTheirs vCoins random).isSome =
          true ↔ nTargetValue.toInt ≤
        totalWorth (vCoins.filter (eligible isFromMe nConfMine nConfTheirs)))) ∧
      ∀ result,
        selectCoinsMinConf isFromMe nTargetValue nConfMine nConfTheirs vCoins random = some result →
        Chosen nTargetValue (vCoins.filter (eligible isFromMe nConfMine nConfTheirs)) result := by
  set isEligible := eligible isFromMe nConfMine nConfTheirs
  have hpos : 0 < nTargetValue.toInt := Int64.lt_iff_toInt_lt.mp htarget
  set vEligible := (random.shuffle vCoins).filter isEligible
  have hperm : vEligible.Perm (vCoins.filter isEligible) := (random.perm_shuffle vCoins).filter _
  have hworth : totalWorth vEligible = totalWorth (vCoins.filter isEligible) :=
    ((hperm.map _).map worth).sum_eq
  have hnodup' : (vEligible.map outpoint).Nodup :=
    (hperm.map _).nodup_iff.mpr ((filter_sublist.map _).nodup hnodup)
  have hsum' : Summable (vEligible.map valued) := by
    refine summable_of_pos (fun output houtput => hvalue output ?_) (hworth ▸ hsum)
    exact (mem_filter.mp (hperm.subset houtput)).1
  rw [selectCoinsMinConf]
  cases hsplit : splitCoins isEligible nTargetValue (random.shuffle vCoins) start with
  | error coin =>
    -- a coin of exactly the value
    obtain ⟨output, houtput, rfl, hexact⟩ := splitCoins_error hsplit
    have hvalued : ([output.valued].map worth).sum = nTargetValue.toInt := by
      rw [map_singleton, sum_singleton, ← hexact]
      rfl
    have hsub := singleton_subperm_iff.mpr (mem_map_of_mem (f := valued) houtput)
    have hle : nTargetValue.toInt ≤ totalWorth (vCoins.filter isEligible) := by
      rw [← hworth, ← hexact]
      exact nValue_le_sum hsum' houtput
    refine ⟨fun _ => iff_of_true rfl hle, fun result hresult => ?_⟩
    cases hresult
    exact (chosen_takeCoins hnodup' hsum' hsub hvalued.ge
      fun _ hmore => absurd (hvalued ▸ hmore) (lt_irrefl _)).of_perm hperm
  | ok s =>
    have hs : s.Holds nTargetValue vEligible := splitCoins_ok holds_start hsum' hsplit
    obtain ⟨hsome, hselected⟩ :=
      select_spec hnodup' hsum' hpos hlt hs random.insecureRand
    rw [hworth] at hsome
    exact ⟨fun hmax => hsome fun output h => hmax output (hperm.subset h),
      fun result hresult => (hselected result hresult).of_perm hperm⟩

/-- Whatever the random choices: a selection is made just when the eligible coins are worth the
target. It consists of distinct eligible coins, its value is at least the target, and it exceeds
the target by less than a cent only if the coins leave no choice. -/
theorem selectCoinsMinConf_spec (isFromMe : CWalletTx → Bool) (nConfMine nConfTheirs : Int32)
    (random : SelectRandom) (hnodup : (vCoins.map outpoint).Nodup)
    (hvalue : ∀ output ∈ vCoins, 0 < output.nValue) (htarget : 0 < nTargetValue)
    (hsum : totalWorth (vCoins.filter (eligible isFromMe nConfMine nConfTheirs)) < 2 ^ 62)
    (hlt : nTargetValue.toInt + cent.toInt < 2 ^ 63) :
    ((selectCoinsMinConf isFromMe nTargetValue nConfMine nConfTheirs vCoins random).isSome = true ↔
        nTargetValue.toInt ≤ totalWorth (vCoins.filter (eligible isFromMe nConfMine nConfTheirs))) ∧
      ∀ result,
        selectCoinsMinConf isFromMe nTargetValue nConfMine nConfTheirs vCoins random = some result →
        Selected nTargetValue (vCoins.filter (eligible isFromMe nConfMine nConfTheirs))
          result := by
  have hmax : Findable (vCoins.filter (eligible isFromMe nConfMine nConfTheirs)) := by
    intro output houtput
    have hsummable := summable_of_pos (fun other hother => hvalue other (mem_filter.mp hother).1)
      (hsum.trans (by decide))
    have hbound := (nValue_le_sum hsummable houtput).trans_lt hsum
    exact Int64.lt_iff_toInt_lt.mpr (hbound.trans (by decide))
  obtain ⟨hsome, hselected⟩ := selectCoinsMinConf_chosen isFromMe nConfMine nConfTheirs random
    hnodup hvalue htarget (hsum.trans (by decide)) hlt
  refine ⟨hsome hmax, fun result hresult => ?_⟩
  obtain ⟨hselection, hspares⟩ := hselected result hresult
  exact ⟨hselection, hspares hmax⟩

end Select

namespace SelectRandom

def plain : SelectRandom where
  shuffle vCoins := vCoins
  perm_shuffle _ := .refl _
  insecureRand _ _ _ := true

end SelectRandom

namespace Sample

def savedCoins : List COutput :=
  (finRange 3).map fun i => ⟨1, savings, i, 10⟩

end Sample

open Sample

/-- Six cents from these coins: the smaller ones are enough. -/
theorem selectCoinsMinConf_savings :
    (selectCoinsMinConf (fun _ => false) (6 * cent) 1 6 savedCoins .plain).isSome = true ∧
      ∀ result, selectCoinsMinConf (fun _ => false) (6 * cent) 1 6 savedCoins .plain = some result →
        Selected (6 * cent) (savedCoins.filter (eligible (fun _ => false) 1 6)) result := by
  have h := selectCoinsMinConf_spec (fun _ => false) 1 6 .plain
    (show (savedCoins.map outpoint).Nodup by decide) (by decide)
    (show 0 < 6 * cent by decide) (by decide) (by decide)
  exact ⟨h.1.mpr (by decide), h.2⟩

end Primecoin
