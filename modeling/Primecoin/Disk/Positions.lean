import Primecoin.Data.Extents
import Primecoin.Disk.BlockFile

/-!
# The extents of blocks and undo data

The places of undo data all come from the counter `nUndoSize` of their file, so they never
overlap.

The places of new blocks come from the counter `nSize`. For a block with a known position the
counter grows by its size, wherever in the file it is. If bytes in front of it were not counted,
it reaches past the counter, and a new block may be written over it.
-/

namespace Primecoin

open Codec Extents List Option BlockFiles CBlockUndo CBlockFileInfo Except Function

/-- A block that `AcceptBlock` places, with the position it was read from, behind the message
start and the size. -/
structure BlockCall where
  dbp : Option FilePos
  nBlockSize : UInt32
  nHeight : UInt32
  nTime : UInt64
  io : FileIo

/-- Undo data that `ConnectBlock` places in the undo file of the block. -/
structure UndoCall where
  nFile : ℕ
  vtxundo : List (List CTxInUndo)
  io : FileIo

inductive FileOp
  | block (call : BlockCall)
  | undo (call : UndoCall)

inductive PlaceKind
  | known
  | new
  | undo
  deriving DecidableEq, Repr

structure Placement where
  kind : PlaceKind
  extent : Extent ℕ
  deriving DecidableEq, Repr

namespace BlockCall

def recordSize (call : BlockCall) : ℕ := call.nBlockSize.toNat + 8

def placement (call : BlockCall) (pos : FilePos) : Placement :=
  match call.dbp with
  | some _ => ⟨.known, ⟨pos.nFile, pos.nPos.toNat - 8, call.recordSize⟩⟩
  | none => ⟨.new, ⟨pos.nFile, pos.nPos.toNat, call.recordSize⟩⟩

end BlockCall

namespace UndoCall

variable (keys : ECKeys)

def nAddSize (call : UndoCall) : UInt32 :=
  getSerializeSize keys call.vtxundo + 40

/-- What `WriteToDisk` writes: the message start, the size, the data and the
checksum. -/
def record (hash : Bytes → UInt256) (network : Network)
    (hashBlock : UInt256) (call : UndoCall) : Bytes :=
  pchMessageStart network ++ leBytes 4 (getSerializeSize keys call.vtxundo).toNat ++
      writeToDisk keys hash hashBlock call.vtxundo

def placement (call : UndoCall) (pos : FilePos) : Placement :=
  ⟨.undo, ⟨pos.nFile, pos.nPos.toNat, (call.nAddSize keys).toNat⟩⟩

end UndoCall

namespace FileOp

def exec (keys : ECKeys) (rounds : ℕ) (files : BlockFiles) :
    FileOp → Option (Except Failure Placement × BlockFiles)
  | block call =>
    (files.findBlockPos rounds call.io call.dbp (call.nBlockSize + 8) call.nHeight
      call.nTime).map fun result => (result.1.map call.placement, result.2)
  | undo call =>
    let result := (findUndoPos call.io call.nFile (call.nAddSize keys)).run files
    some (result.1.map (call.placement keys), result.2)

/-- The node shuts down when a call fails. -/
def run (keys : ECKeys) (rounds : ℕ) : BlockFiles → List FileOp →
    Option (Except Failure (List Placement))
  | _, [] => some (.ok [])
  | files, op :: ops =>
    match op.exec keys rounds files with
    | none => none
    | some (.error failure, _) => some (.error failure)
    | some (.ok placement, files) => (run keys rounds files ops).map (Except.map (placement :: ·))

theorem run_cons_eq_ok_iff {keys : ECKeys} {rounds : ℕ} {files : BlockFiles} {op : FileOp}
    {ops : List FileOp} {placements : List Placement} :
    run keys rounds files (op :: ops) = some (.ok placements) ↔
      ∃ placement files' rest, op.exec keys rounds files = some (.ok placement, files') ∧
        run keys rounds files' ops = some (.ok rest) ∧ placements = placement :: rest := by
  rw [run]
  rcases hexec : op.exec keys rounds files with _ | ⟨⟨failure⟩ | ⟨placement⟩, files'⟩
  · simp
  · simp
  · simp only [map_eq_some_iff, some.injEq, Prod.mk.injEq, ok.injEq]
    constructor
    · rintro ⟨rest, hrest, hmap⟩
      cases rest with
      | error failure => cases hmap
      | ok rest => exact ⟨placement, files', rest, ⟨rfl, rfl⟩, hrest, (ok.inj hmap).symm⟩
    · rintro ⟨_, _, rest, ⟨rfl, rfl⟩, hrest, rfl⟩
      exact ⟨.ok rest, hrest, rfl⟩

end FileOp

/-! ## Undo data -/

namespace FileOp

variable {keys : ECKeys} {rounds : ℕ} {files files' : BlockFiles}

def undoCalls (ops : List FileOp) : List UndoCall :=
  ops.filterMap fun
    | block _ => none
    | undo call => some call

def undoExtents (placements : List Placement) : List (Extent ℕ) :=
  placements.filterMap fun placement =>
    if placement.kind = .undo then some placement.extent else none

def undoBytes (keys : ECKeys) (nFile : ℕ) (ops : List FileOp) : ℕ :=
  ((undoCalls ops).map fun call =>
    if call.nFile = nFile then (serialize keys call.vtxundo).length + 40 else 0).sum

theorem exec_block_ok {call : BlockCall} {placement : Placement} (hfiles : files.Coherent)
    (h : (block call).exec keys rounds files = some (.ok placement, files')) :
    files'.Coherent ∧ placement.kind ≠ .undo ∧
      ∀ nFile, (files'.table nFile).nUndoSize = (files.table nFile).nUndoSize := by
  obtain ⟨⟨result, next⟩, hfind, hresult⟩ := map_eq_some_iff.mp h
  obtain ⟨hok, rfl⟩ := Prod.mk.inj hresult
  cases result with
  | error failure => cases hok
  | ok pos =>
    have hkind : placement.kind ≠ .undo := by
      rw [← ok.inj hok, BlockCall.placement]
      cases call.dbp <;> simp
    have hreplaces : ∃ nFile, Replaces files.table next nFile
        ((files.table nFile).withBlock (call.nBlockSize + 8) call.nHeight call.nTime) := by
      cases hdbp : call.dbp with
      | some known =>
        rw [hdbp] at hfind
        exact ⟨_, (findBlockPos_known_ok hfiles hfind).2.2⟩
      | none =>
        rw [hdbp] at hfind
        exact ⟨_, (findBlockPos_new_ok hfiles hfind).2⟩
    obtain ⟨changed, hreplaces⟩ := hreplaces
    refine ⟨hreplaces.coherent, hkind, fun nFile => ?_⟩
    rw [hreplaces.table_eq]
    by_cases hfile : nFile = changed
    · subst hfile
      rw [update_self, withBlock, nUndoSize_addBlock]
    · rw [update_of_ne hfile]

theorem toNat_nAddSize (keys : ECKeys) (call : UndoCall)
    (h : (serialize keys call.vtxundo).length + 40 < 2 ^ 32) :
    (call.nAddSize keys).toNat = (serialize keys call.vtxundo).length + 40 := by
  rw [UndoCall.nAddSize, getSerializeSize_eq, UInt32.toNat_add, UInt32.toNat_ofNat']
  simp only [UInt32.reduceToNat]
  omega

theorem exec_undo_ok {call : UndoCall} {placement : Placement} {used : ℕ → ℕ}
    (hfiles : files.Coherent) (hused : ∀ nFile, (files.table nFile).nUndoSize.toNat = used nFile)
    (hfits : used call.nFile + ((serialize keys call.vtxundo).length + 40) < 2 ^ 32)
    (h : (undo call).exec keys rounds files = some (.ok placement, files')) :
    files'.Coherent ∧ placement = ⟨.undo, ⟨call.nFile, used call.nFile,
        (serialize keys call.vtxundo).length + 40⟩⟩ ∧
      ∀ nFile, (files'.table nFile).nUndoSize.toNat = grow used call.nFile
        ((serialize keys call.vtxundo).length + 40) nFile := by
  have hsize := toNat_nAddSize keys call (by omega)
  simp only [exec, some.injEq, Prod.mk.injEq] at h
  rcases hfind : (findUndoPos call.io call.nFile (call.nAddSize keys)).run files with
    ⟨result, next⟩
  rw [hfind] at h
  obtain ⟨hok, rfl⟩ := h
  cases result with
  | error failure => cases hok
  | ok pos =>
    obtain ⟨rfl, hreplaces⟩ := findUndoPos_ok hfiles hfind
    refine ⟨hreplaces.coherent, ?_, fun nFile => ?_⟩
    · rw [← ok.inj hok, UndoCall.placement, hsize, hused]
    · rw [hreplaces.table_eq]
      by_cases hfile : nFile = call.nFile
      · subst hfile
        rw [update_self, grow_self, withUndo]
        simp only
        rw [UInt32.toNat_add, hused, hsize]
        omega
      · rw [update_of_ne hfile, grow_of_ne hfile, hused]

theorem undoExtents_run {ops : List FileOp} {placements : List Placement} {used : ℕ → ℕ}
    (hfiles : files.Coherent) (hused : ∀ nFile, (files.table nFile).nUndoSize.toNat = used nFile)
    (hfits : ∀ nFile, used nFile + undoBytes keys nFile ops < 2 ^ 32)
    (h : run keys rounds files ops = some (.ok placements)) :
    undoExtents placements = reserveAll used ((undoCalls ops).map fun call =>
      (call.nFile, (serialize keys call.vtxundo).length + 40)) := by
  induction ops generalizing files used placements with
  | nil =>
    obtain rfl := Except.ok.inj (some.inj h)
    rfl
  | cons op ops ih =>
    obtain ⟨placement, files', rest, hexec, hrest, rfl⟩ := run_cons_eq_ok_iff.mp h
    cases op with
    | block call =>
      obtain ⟨hcoherent, hkind, hsame⟩ := exec_block_ok hfiles hexec
      have hextents : undoExtents (placement :: rest) = undoExtents rest := by
        simp only [undoExtents, filterMap_cons, if_neg hkind]
      rw [hextents]
      exact ih hcoherent (fun nFile => by rw [hsame, hused]) hfits hrest
    | undo call =>
      have hcalls : undoCalls (undo call :: ops) = call :: undoCalls ops := rfl
      have hroom : ∀ nFile, grow used call.nFile ((serialize keys call.vtxundo).length + 40) nFile +
            undoBytes keys nFile ops < 2 ^ 32 := by
        intro nFile
        have hle := hfits nFile
        rw [undoBytes, hcalls, map_cons, sum_cons] at hle
        by_cases hfile : nFile = call.nFile
        · subst hfile
          rw [if_pos rfl] at hle
          rw [grow_self, undoBytes]
          omega
        · rw [if_neg (Ne.symm hfile)] at hle
          rw [grow_of_ne hfile, undoBytes]
          omega
      have hthis := hroom call.nFile
      rw [grow_self] at hthis
      obtain ⟨hcoherent, rfl, hgrown⟩ := exec_undo_ok hfiles hused (by omega) hexec
      rw [hcalls, map_cons, reserveAll, ← ih hcoherent hgrown hroom hrest]
      rfl

/-- Undo data never overlaps, and every record fills its extent. -/
theorem run_undo_apart (keys : ECKeys) (hash : Bytes → UInt256) (network : Network)
    {rounds : ℕ} {ops : List FileOp} {placements : List Placement}
    (hsize : ∀ nFile, undoBytes keys nFile ops < 2 ^ 32)
    (h : run keys rounds .fresh ops = some (.ok placements)) :
    (undoExtents placements).Pairwise Apart ∧
      Forall₂ (fun (call : UndoCall) extent => extent.key = call.nFile ∧
        extent.length = (serialize keys call.vtxundo).length + 40 ∧
        ∀ hashBlock, (call.record keys hash network hashBlock).length = extent.length)
        (undoCalls ops) (undoExtents placements) := by
  have hextents : undoExtents placements = reserveAll (fun _ => 0) _ :=
    undoExtents_run coherent_fresh (fun _ => rfl) (fun nFile => by simpa using hsize nFile) h
  rw [hextents]
  refine ⟨pairwise_apart_reserveAll _ _, ?_⟩
  generalize (fun _ => 0 : ℕ → ℕ) = used
  induction undoCalls ops generalizing used with
  | nil => exact Forall₂.nil
  | cons call calls ih =>
    refine Forall₂.cons ⟨rfl, rfl, fun hashBlock => ?_⟩ (ih _)
    have hstart : (pchMessageStart network).length = 4 := by cases network <;> rfl
    simp only [UndoCall.record, writeToDisk, length_append, length_leBytes, hstart]
    omega

def switching : List FileOp :=
  [block ⟨none, 900, 1, 1373064429, ⟨true, .ok⟩⟩,
    undo ⟨0, [[⟨⟨50000000, [0x51]⟩, true, 7, 1⟩]], ⟨true, .ok⟩⟩,
    block ⟨some ⟨1, 8⟩, 700, 2, 1373064489, ⟨true, .ok⟩⟩,
    undo ⟨1, [], ⟨true, .ok⟩⟩,
    undo ⟨0, [[]], ⟨true, .ok⟩⟩,
    block ⟨none, 600, 3, 1373064549, ⟨true, .ok⟩⟩,
    undo ⟨1, [[]], ⟨true, .ok⟩⟩]

theorem run_undo_apart_switching :
    run Sample.keys 3 .fresh switching = some (.ok [⟨.new, ⟨0, 0, 908⟩⟩, ⟨.undo, ⟨0, 0, 47⟩⟩,
      ⟨.known, ⟨1, 0, 708⟩⟩, ⟨.undo, ⟨1, 0, 41⟩⟩, ⟨.undo, ⟨0, 47, 42⟩⟩,
      ⟨.new, ⟨1, 708, 608⟩⟩, ⟨.undo, ⟨1, 41, 42⟩⟩]) ∧
    ([⟨0, 0, 47⟩, ⟨1, 0, 41⟩, ⟨0, 47, 42⟩, ⟨1, 41, 42⟩] : List (Extent ℕ)).Pairwise Apart := by
  have hrun : run Sample.keys 3 .fresh switching = some (.ok [⟨.new, ⟨0, 0, 908⟩⟩,
      ⟨.undo, ⟨0, 0, 47⟩⟩, ⟨.known, ⟨1, 0, 708⟩⟩, ⟨.undo, ⟨1, 0, 41⟩⟩, ⟨.undo, ⟨0, 47, 42⟩⟩,
      ⟨.new, ⟨1, 708, 608⟩⟩, ⟨.undo, ⟨1, 41, 42⟩⟩]) := by
    decide +kernel
  have hsize : ∀ nFile, undoBytes Sample.keys nFile switching < 2 ^ 32 := by
    intro nFile
    have hle : undoBytes Sample.keys nFile switching ≤ 47 + (41 + (42 + 42)) := by
      simp only [undoBytes, undoCalls, switching, filterMap_cons, filterMap_nil,
        map_cons, map_nil, sum_cons, sum_nil]
      gcongr <;> split_ifs <;> decide
    omega
  exact ⟨hrun, (run_undo_apart Sample.keys (fun _ => 0) .official hsize hrun).1⟩

end FileOp

/-! ## Blocks -/

namespace BlockCall

variable {calls : List BlockCall} {call : BlockCall} (nFile : ℕ)

def knownBytes (calls : List BlockCall) : ℕ :=
  (calls.map fun call =>
    if call.dbp.map FilePos.nFile = some nFile then call.recordSize else 0).sum

theorem knownBytes_cons (call : BlockCall) (calls : List BlockCall) :
    knownBytes nFile (call :: calls) =
      (if call.dbp.map FilePos.nFile = some nFile then call.recordSize else 0) +
        knownBytes nFile calls := by
  rw [knownBytes, map_cons, sum_cons, knownBytes]

theorem knownBytes_le (calls : List BlockCall) :
    knownBytes nFile calls ≤ (calls.map recordSize).sum := by
  refine sum_le_sum fun call _ => ?_
  split_ifs
  · exact le_rfl
  · exact Nat.zero_le _

/-- All calls return: a new block is smaller than a file, the blocks read from a file leave its
counter in the range of `unsigned int`, and the disk works. -/
structure Admissible (calls : List BlockCall) : Prop where
  new : ∀ call ∈ calls, call.dbp = none → call.recordSize < maxBlockFileSize.toNat
  known : ∀ nFile, knownBytes nFile calls + 2 * maxBlockFileSize.toNat ≤ 2 ^ 32
  io : ∀ call ∈ calls, call.io = ⟨true, .ok⟩

/-- The file a new block goes to: the first one from the current file on in which it fits. -/
def landing (used : ℕ → ℕ) (nSize : ℕ) : ℕ → ℕ → Option ℕ
  | 0, _ => none
  | rounds + 1, nFile =>
    if maxBlockFileSize.toNat ≤ used nFile + nSize then landing used nSize rounds (nFile + 1)
    else some nFile

/-- No block read from a file lies across the place of a new block, which is behind as many bytes
as the blocks in the file have. The arguments are the current file, the bytes of the blocks in
each file, and where the known blocks lie. -/
def Clear (rounds : ℕ) : ℕ → (ℕ → ℕ) → List (Extent ℕ) → List BlockCall → Prop
  | _, _, _, [] => True
  | current, used, known, call :: calls =>
    match call.dbp with
    | some pos =>
      Clear rounds pos.nFile (grow used pos.nFile call.recordSize)
        ((call.placement pos).extent :: known) calls
    | none =>
      ∀ nFile, landing used call.recordSize rounds current = some nFile →
        (∀ extent ∈ known, Apart extent ⟨nFile, used nFile, call.recordSize⟩) ∧
          Clear rounds nFile (grow used nFile call.recordSize) known calls

section Clear

variable {rounds current : ℕ} {used : ℕ → ℕ} {known : List (Extent ℕ)}

theorem clear_known {pos : FilePos} (hdbp : call.dbp = some pos) :
    Clear rounds current used known (call :: calls) ↔
      Clear rounds pos.nFile (grow used pos.nFile call.recordSize)
        ((call.placement pos).extent :: known) calls := by
  rw [Clear, hdbp]

theorem clear_new {nFile : ℕ} (hdbp : call.dbp = none)
    (hlanding : landing used call.recordSize rounds current = some nFile) :
    Clear rounds current used known (call :: calls) ↔
      (∀ extent ∈ known, Apart extent ⟨nFile, used nFile, call.recordSize⟩) ∧
        Clear rounds nFile (grow used nFile call.recordSize) known calls := by
  rw [Clear, hdbp]
  simp only [hlanding, some.injEq, forall_eq']

end Clear

variable {used : ℕ → ℕ} {nSize rounds : ℕ}

theorem toNat_maxBlockFileSize : maxBlockFileSize.toNat = 134217728 := rfl

theorem fits_of_landing {current nFile : ℕ} (h : landing used nSize rounds current = some nFile) :
    used nFile + nSize < maxBlockFileSize.toNat := by
  induction rounds generalizing current with
  | zero => cases h
  | succ rounds ih =>
    rw [landing] at h
    split_ifs at h with hfull
    · exact ih h
    · obtain rfl := some.inj h
      exact not_le.mp hfull

theorem full_of_landing_eq_none {current : ℕ} (h : landing used nSize rounds current = none) :
    ∀ i < rounds, maxBlockFileSize.toNat ≤ used (current + i) + nSize := by
  induction rounds generalizing current with
  | zero => exact fun i hi => absurd hi (Nat.not_lt_zero i)
  | succ rounds ih =>
    rw [landing] at h
    split_ifs at h with hfull
    intro i hi
    cases i with
    | zero => exact hfull
    | succ i =>
      have hnext := ih h i (Nat.lt_of_succ_lt_succ hi)
      rwa [Nat.add_assoc, Nat.add_comm 1 i] at hnext

theorem exists_landing (current : ℕ) {touched : List ℕ}
    (hsize : nSize < maxBlockFileSize.toNat) (htouched : ∀ nFile, used nFile ≠ 0 → nFile ∈ touched)
    (hrounds : touched.length < rounds) :
    ∃ nFile, landing used nSize rounds current = some nFile := by
  cases hnone : landing used nSize rounds current with
  | some nFile => exact ⟨nFile, rfl⟩
  | none =>
    have hfull := full_of_landing_eq_none hnone
    have hsub : (range rounds).map (current + ·) ⊆ touched := by
      intro nFile hmem
      obtain ⟨i, hi, rfl⟩ := mem_map.mp hmem
      have hused := hfull i (mem_range.mp hi)
      exact htouched _ (by omega)
    have hnodup : ((range rounds).map (current + ·)).Nodup :=
      nodup_range.map fun i j hij => Nat.add_left_cancel hij
    have hle := (subperm_of_subset hnodup hsub).length_le
    rw [length_map, length_range] at hle
    omega

end BlockCall

namespace FileOp

open BlockCall

variable {keys : ECKeys} {rounds : ℕ} {files : BlockFiles} {used : ℕ → ℕ} {call : BlockCall}
  {files' : BlockFiles}

theorem nSize_replaces {nFile : ℕ} {nHeight : UInt32} {nTime : UInt64}
    (hused : ∀ nFile, (files.table nFile).nSize.toNat = used nFile)
    (hfits : used nFile + call.recordSize < 2 ^ 32) (h : Replaces files.table files' nFile
      ((files.table nFile).withBlock (call.nBlockSize + 8) nHeight nTime)) :
    ∀ other, (files'.table other).nSize.toNat = grow used nFile call.recordSize other := by
  intro other
  rw [h.table_eq]
  by_cases hfile : other = nFile
  · subst hfile
    rw [update_self, grow_self, withBlock, nSize_addBlock]
    simp only [UInt32.toNat_add, hused, UInt32.reduceToNat]
    rw [recordSize] at hfits ⊢
    omega
  · rw [update_of_ne hfile, grow_of_ne hfile, hused]

theorem exec_known (hfiles : files.Coherent)
    (hused : ∀ nFile, (files.table nFile).nSize.toNat = used nFile)
    (hio : call.io = ⟨true, .ok⟩) {pos : FilePos} (hdbp : call.dbp = some pos)
    (hfits : used pos.nFile + call.recordSize < 2 ^ 32) :
    ∃ files', (block call).exec keys rounds files = some (.ok (call.placement pos), files') ∧
      files'.Coherent ∧ files'.nLastBlockFile = pos.nFile ∧
      ∀ nFile, (files'.table nFile).nSize.toNat = grow used pos.nFile call.recordSize nFile := by
  obtain ⟨files', hrecord⟩ := recordBlock_returns
    (if files.nLastBlockFile ≠ pos.nFile then files.switch pos.nFile else files) pos
    (call.nBlockSize + 8) call.nHeight call.nTime true
  have hfind : files.findBlockPos rounds call.io call.dbp (call.nBlockSize + 8) call.nHeight
      call.nTime = some (.ok pos, files') := by
    rw [hdbp, hio, findBlockPos]
    exact congrArg some hrecord
  refine ⟨files', ?_, ?_⟩
  · rw [exec, hfind]
    rfl
  · rw [hdbp] at hfind
    obtain ⟨-, hlast, hreplaces⟩ := findBlockPos_known_ok hfiles hfind
    exact ⟨hreplaces.coherent, hlast, nSize_replaces hused hfits hreplaces⟩

theorem leaveFull_landing {nAddSize : UInt32} (hfiles : files.Coherent)
    (hused : ∀ nFile, (files.table nFile).nSize.toNat = used nFile)
    (hfits : ∀ nFile, used nFile + nAddSize.toNat < 2 ^ 32) (rounds : ℕ) :
    (files.leaveFull nAddSize rounds).map nLastBlockFile =
      landing used nAddSize.toNat rounds files.nLastBlockFile := by
  induction rounds generalizing files with
  | zero => rfl
  | succ rounds ih =>
    have hfull : maxBlockFileSize ≤ files.infoLastBlockFile.nSize + nAddSize ↔
        maxBlockFileSize.toNat ≤ used files.nLastBlockFile + nAddSize.toNat := by
      rw [UInt32.le_iff_toNat_le, UInt32.toNat_add, hfiles, hused,
        Nat.mod_eq_of_lt (hfits files.nLastBlockFile)]
    rw [leaveFull, landing]
    split_ifs with h1 h2 h2
    · exact ih (coherent_switch files _) hused
    · exact absurd (hfull.mp h1) h2
    · exact absurd (hfull.mpr h2) h1
    · rfl

theorem exec_new (hfiles : files.Coherent)
    (hused : ∀ nFile, (files.table nFile).nSize.toNat = used nFile)
    (hsize : call.recordSize < maxBlockFileSize.toNat) (hio : call.io = ⟨true, .ok⟩)
    (hdbp : call.dbp = none) (hfits : ∀ nFile, used nFile + maxBlockFileSize.toNat ≤ 2 ^ 32)
    {nFile : ℕ} (hlanding : landing used call.recordSize rounds files.nLastBlockFile = some nFile) :
    ∃ files', (block call).exec keys rounds files =
        some (.ok ⟨.new, ⟨nFile, used nFile, call.recordSize⟩⟩, files') ∧
      files'.Coherent ∧ files'.nLastBlockFile = nFile ∧
      ∀ other, (files'.table other).nSize.toNat = grow used nFile call.recordSize other := by
  have hadd : (call.nBlockSize + 8).toNat = call.recordSize := by
    rw [recordSize, toNat_maxBlockFileSize] at hsize
    simp only [UInt32.toNat_add, recordSize, UInt32.reduceToNat]
    omega
  have hroom : ∀ nFile, used nFile + call.recordSize < 2 ^ 32 := by
    intro nFile
    have hle := hfits nFile
    omega
  have hleave := leaveFull_landing hfiles hused (by rwa [hadd]) rounds
  rw [hadd, hlanding] at hleave
  obtain ⟨next, hnext, rfl⟩ := map_eq_some_iff.mp hleave
  obtain ⟨files', hrecord⟩ := recordBlock_returns next
    ⟨next.nLastBlockFile, next.infoLastBlockFile.nSize⟩ (call.nBlockSize + 8) call.nHeight
    call.nTime false
  have hfind : files.findBlockPos rounds call.io call.dbp (call.nBlockSize + 8) call.nHeight
      call.nTime = some (.ok ⟨next.nLastBlockFile, next.infoLastBlockFile.nSize⟩, files') := by
    rw [hdbp, hio, findBlockPos, hnext]
    exact congrArg some hrecord
  obtain ⟨hcoherent, htable⟩ := leaveFull_ok hfiles hnext
  obtain ⟨-, hlast, -⟩ := recordBlock_ok hcoherent hrecord
  refine ⟨files', ?_, ?_⟩
  · rw [exec, hfind]
    simp only [map_some, Except.map, placement, hdbp]
    rw [hcoherent, htable, hused]
  · rw [hdbp] at hfind
    obtain ⟨-, hreplaces⟩ := findBlockPos_new_ok hfiles hfind
    rw [hlast] at hreplaces
    exact ⟨hreplaces.coherent, hlast, nSize_replaces hused (hroom _) hreplaces⟩

/-- Every new block lies apart from all that was placed before it. -/
def Spaced : Set (Extent ℕ) → List Placement → Prop
  | _, [] => True
  | before, placement :: placements =>
    (placement.kind = .new → ∀ extent ∈ before, Apart extent placement.extent) ∧
      Spaced (insert placement.extent before) placements

theorem spaced_iff {before : Set (Extent ℕ)} {placements : List Placement} :
    Spaced before placements ↔ (placements.Pairwise fun earlier later =>
        later.kind = .new → Apart earlier.extent later.extent) ∧
      ∀ placement ∈ placements, placement.kind = .new →
        ∀ extent ∈ before, Apart extent placement.extent := by
  induction placements generalizing before with
  | nil => simp [Spaced]
  | cons placement placements ih =>
    rw [Spaced, ih, pairwise_cons, forall_mem_cons]
    simp only [Set.forall_mem_insert]
    constructor
    · rintro ⟨hfirst, hpairs, hrest⟩
      exact ⟨⟨fun later hmem hnew => (hrest later hmem hnew).1, hpairs⟩, hfirst,
        fun later hmem hnew => (hrest later hmem hnew).2⟩
    · rintro ⟨⟨hnext, hpairs⟩, hfirst, hrest⟩
      exact ⟨hfirst, hpairs, fun later hmem hnew =>
        ⟨hnext later hmem hnew, hrest later hmem hnew⟩⟩

theorem exists_run_cons_iff {op : FileOp} {ops : List FileOp} {placement : Placement}
    (hexec : op.exec keys rounds files = some (.ok placement, files'))
    {before : Set (Extent ℕ)} :
    (∃ placements, run keys rounds files (op :: ops) = some (.ok placements) ∧
        Spaced before placements) ↔
      (placement.kind = .new → ∀ extent ∈ before, Apart extent placement.extent) ∧
        ∃ placements, run keys rounds files' ops = some (.ok placements) ∧
          Spaced (insert placement.extent before) placements := by
  simp only [run_cons_eq_ok_iff, hexec, some.injEq, Prod.mk.injEq, ok.injEq]
  constructor
  · rintro ⟨_, ⟨_, _, rest, ⟨rfl, rfl⟩, hrest, rfl⟩, hfirst, hspaced⟩
    exact ⟨hfirst, rest, hrest, hspaced⟩
  · rintro ⟨hfirst, rest, hrest, hspaced⟩
    exact ⟨placement :: rest, ⟨_, _, rest, ⟨rfl, rfl⟩, hrest, rfl⟩, hfirst, hspaced⟩

/-- Between two calls: `used` are the counters, and what was placed before is a block with a known
position or within the counters. Only files with blocks in them are left, so the search for a file
ends. -/
structure Accounted (rounds : ℕ) (files : BlockFiles) (used : ℕ → ℕ) (known : List (Extent ℕ))
    (before : Set (Extent ℕ)) (calls : List BlockCall) : Prop where
  coherent : files.Coherent
  nSize : ∀ nFile, (files.table nFile).nSize.toNat = used nFile
  new : ∀ call ∈ calls, call.dbp = none → call.recordSize < maxBlockFileSize.toNat
  io : ∀ call ∈ calls, call.io = ⟨true, .ok⟩
  room : ∀ nFile, max (used nFile) maxBlockFileSize.toNat + knownBytes nFile calls +
    maxBlockFileSize.toNat ≤ 2 ^ 32
  known_before : ∀ extent ∈ known, extent ∈ before
  before_known : ∀ extent ∈ before, extent ∈ known ∨ Within used extent
  ends : ∃ touched : List ℕ, (∀ nFile, used nFile ≠ 0 → nFile ∈ touched) ∧
    touched.length + calls.length < rounds

namespace Accounted

variable {known : List (Extent ℕ)} {before : Set (Extent ℕ)} {calls : List BlockCall}

theorem fresh (h : Admissible calls) (hrounds : calls.length < rounds) :
    Accounted rounds .fresh (fun _ => 0) [] ∅ calls where
  coherent := coherent_fresh
  nSize _ := rfl
  new := h.new
  io := h.io
  room nFile := by
    have hle := h.known nFile
    rw [Nat.zero_max]
    omega
  known_before _ hmem := absurd hmem not_mem_nil
  before_known _ hmem := absurd hmem (Set.notMem_empty _)
  ends := ⟨[], fun _ hne => absurd rfl hne, by rwa [length_nil, Nat.zero_add]⟩

section

variable (h : Accounted rounds files used known before (call :: calls))
include h

theorem ends_grow (nFile : ℕ) :
    ∃ touched : List ℕ, (∀ other, grow used nFile call.recordSize other ≠ 0 → other ∈ touched) ∧
      touched.length + calls.length < rounds := by
  obtain ⟨touched, htouched, hrounds⟩ := h.ends
  refine ⟨nFile :: touched, fun other hne => ?_, ?_⟩
  · by_cases hfile : other = nFile
    · rw [hfile]
      exact mem_cons_self
    · rw [grow_of_ne hfile] at hne
      exact mem_cons_of_mem _ (htouched other hne)
  · simp only [length_cons] at hrounds ⊢
    omega

theorem exec_known {pos : FilePos} (hdbp : call.dbp = some pos) :
    ∃ files', (block call).exec keys rounds files = some (.ok (call.placement pos), files') ∧
      files'.nLastBlockFile = pos.nFile ∧
      Accounted rounds files' (grow used pos.nFile call.recordSize)
        ((call.placement pos).extent :: known) (insert (call.placement pos).extent before)
        calls := by
  have hroom : used pos.nFile + call.recordSize < 2 ^ 32 := by
    have hle := h.room pos.nFile
    rw [knownBytes_cons, hdbp, map_some, if_pos rfl, toNat_maxBlockFileSize] at hle
    omega
  obtain ⟨files', hexec, hcoherent, hlast, hgrown⟩ :=
    FileOp.exec_known h.coherent h.nSize (h.io call mem_cons_self) hdbp hroom
  refine ⟨files', hexec, hlast, ?_⟩
  exact {
    coherent := hcoherent
    nSize := hgrown
    new := fun other hmem => h.new other (mem_cons_of_mem call hmem)
    io := fun other hmem => h.io other (mem_cons_of_mem call hmem)
    room := by
      intro nFile
      have hle := h.room nFile
      rw [knownBytes_cons, hdbp, map_some] at hle
      by_cases hfile : nFile = pos.nFile
      · subst hfile
        rw [if_pos rfl] at hle
        rw [grow_self]
        generalize maxBlockFileSize.toNat = m at hle ⊢
        omega
      · rw [if_neg (fun heq => hfile (some.inj heq).symm), Nat.zero_add] at hle
        rwa [grow_of_ne hfile]
    known_before := by
      intro extent hmem
      rcases mem_cons.mp hmem with rfl | hmem
      · exact Set.mem_insert _ _
      · exact Set.mem_insert_of_mem _ (h.known_before extent hmem)
    before_known := by
      intro extent hmem
      rcases Set.mem_insert_iff.mp hmem with rfl | hmem
      · exact .inl mem_cons_self
      · exact (h.before_known extent hmem).imp (mem_cons_of_mem _) (·.grow _ _)
    ends := h.ends_grow pos.nFile }

theorem exec_new (hdbp : call.dbp = none) :
    ∃ nFile files', landing used call.recordSize rounds files.nLastBlockFile = some nFile ∧
      (block call).exec keys rounds files =
        some (.ok ⟨.new, ⟨nFile, used nFile, call.recordSize⟩⟩, files') ∧
      files'.nLastBlockFile = nFile ∧
      Accounted rounds files' (grow used nFile call.recordSize) known
        (insert ⟨nFile, used nFile, call.recordSize⟩ before) calls := by
  have hsize := h.new call mem_cons_self hdbp
  obtain ⟨touched, htouched, hrounds⟩ := h.ends
  obtain ⟨nFile, hlanding⟩ := exists_landing files.nLastBlockFile hsize htouched
    (Nat.lt_of_le_of_lt (Nat.le_add_right _ _) hrounds)
  have hroom : ∀ other, used other + maxBlockFileSize.toNat ≤ 2 ^ 32 := by
    intro other
    have hle := h.room other
    omega
  obtain ⟨files', hexec, hcoherent, hlast, hgrown⟩ :=
    FileOp.exec_new h.coherent h.nSize hsize (h.io call mem_cons_self) hdbp hroom hlanding
  refine ⟨nFile, files', hlanding, hexec, hlast, ?_⟩
  exact {
    coherent := hcoherent
    nSize := hgrown
    new := fun other hmem => h.new other (mem_cons_of_mem call hmem)
    io := fun other hmem => h.io other (mem_cons_of_mem call hmem)
    room := by
      intro other
      have hle := h.room other
      rw [knownBytes_cons, hdbp, map_none, if_neg (some_ne_none other).symm, Nat.zero_add] at hle
      by_cases hfile : other = nFile
      · subst hfile
        have hfits := fits_of_landing hlanding
        rw [grow_self]
        generalize maxBlockFileSize.toNat = m at hle hfits ⊢
        omega
      · rwa [grow_of_ne hfile]
    known_before := fun extent hmem => Set.mem_insert_of_mem _ (h.known_before extent hmem)
    before_known := by
      intro extent hmem
      rcases Set.mem_insert_iff.mp hmem with rfl | hmem
      · exact .inr (within_grow_self used nFile call.recordSize)
      · exact (h.before_known extent hmem).imp_right (·.grow _ _)
    ends := h.ends_grow nFile }

end

/-- A new block can only run into a block with a known position. -/
theorem exists_run_spaced_iff (keys : ECKeys) (h : Accounted rounds files used known before calls) :
    (∃ placements, run keys rounds files (calls.map block) = some (.ok placements) ∧
        Spaced before placements) ↔
      Clear rounds files.nLastBlockFile used known calls := by
  induction calls generalizing files used known before with
  | nil => exact iff_of_true ⟨[], rfl, trivial⟩ trivial
  | cons call calls ih =>
    rw [map_cons]
    cases hdbp : call.dbp with
    | some pos =>
      obtain ⟨files', hexec, hlast, hnext⟩ := h.exec_known hdbp
      have hkind : (call.placement pos).kind ≠ .new := by
        rw [placement, hdbp]
        exact PlaceKind.noConfusion
      rw [exists_run_cons_iff hexec, clear_known hdbp, ih hnext, hlast]
      exact and_iff_right fun hnew => absurd hnew hkind
    | none =>
      obtain ⟨nFile, files', hlanding, hexec, rfl, hnext⟩ := h.exec_new hdbp
      rw [exists_run_cons_iff hexec, clear_new hdbp hlanding, ih hnext]
      refine and_congr_left fun _ => ⟨fun hall extent hmem => ?_, fun hall _ extent hmem => ?_⟩
      · exact hall rfl extent (h.known_before extent hmem)
      · rcases h.before_known extent hmem with hmem | hwithin
        · exact hall extent hmem
        · exact hwithin.apart files'.nLastBlockFile call.recordSize

end Accounted

/-- New blocks stay apart from all before them just when no known block reaches past the bytes
counted in its file into the place of a new one. -/
theorem run_blocks_apart_iff (keys : ECKeys) {rounds : ℕ} {calls : List BlockCall}
    (hcalls : Admissible calls) (hrounds : calls.length < rounds) :
    (∃ placements, run keys rounds .fresh (calls.map block) = some (.ok placements) ∧
        placements.Pairwise fun earlier later =>
          later.kind = .new → Apart earlier.extent later.extent) ↔
      Clear rounds 0 (fun _ => 0) [] calls := by
  have hiff := (Accounted.fresh hcalls hrounds).exists_run_spaced_iff keys
  simp only [spaced_iff, Set.mem_empty_iff_false, false_implies, implies_true, and_true] at hiff
  exact hiff

def contiguous : List BlockCall :=
  [⟨some ⟨0, 8⟩, 300, 0, 1373064429, ⟨true, .ok⟩⟩, ⟨some ⟨0, 316⟩, 400, 1, 1373064489, ⟨true, .ok⟩⟩,
    ⟨none, 500, 2, 1373064549, ⟨true, .ok⟩⟩]

theorem admissible_contiguous : Admissible contiguous where
  new := by decide
  known nFile := le_trans (Nat.add_le_add_right (knownBytes_le nFile contiguous) _) (by decide)
  io := by simp [contiguous]

theorem run_blocks_apart_iff_contiguous : ∃ placements,
    run Sample.keys 4 .fresh (contiguous.map block) = some (.ok placements) ∧
      placements.Pairwise fun earlier later =>
        later.kind = .new → Apart earlier.extent later.extent := by
  refine (run_blocks_apart_iff Sample.keys admissible_contiguous (by decide)).mpr ?_
  rw [contiguous, clear_known rfl, clear_known rfl, clear_new rfl rfl]
  exact ⟨by decide, trivial⟩

def skipped : List BlockCall :=
  [⟨some ⟨0, 8⟩, 300, 0, 1373064429, ⟨true, .ok⟩⟩, ⟨some ⟨0, 816⟩, 400, 1, 1373064489, ⟨true, .ok⟩⟩,
    ⟨none, 500, 2, 1373064549, ⟨true, .ok⟩⟩]

theorem run_blocks_overlap_skipped : Admissible skipped ∧
    run Sample.keys 4 .fresh (skipped.map block) = some (.ok
      [⟨.known, ⟨0, 0, 308⟩⟩, ⟨.known, ⟨0, 808, 408⟩⟩, ⟨.new, ⟨0, 716, 508⟩⟩]) ∧
    ¬ Apart (⟨0, 808, 408⟩ : Extent ℕ) ⟨0, 716, 508⟩ := by
  refine ⟨?_, by decide, by decide⟩
  exact {
    new := by decide
    known := fun nFile =>
      le_trans (Nat.add_le_add_right (knownBytes_le nFile skipped) _) (by decide)
    io := by simp [skipped] }

end FileOp

end Primecoin
