import Primecoin.Codec.Extract
import Primecoin.Net.Message
import Primecoin.Serialize.Integer

/-!
# The version message

`processVersion` reads the fields of the message straight into the peer, so that what was read
before the message ran out stays there: the caller catches the exception and goes on with the peer
as it is.

`readVersionHead` and `readVersionTail` read the same message without a peer. They say which
messages are complete.
-/

namespace Primecoin

open Codec Stateful Option

def minProtoVersion : Int32 := 209
def protocolVersion : Int32 := 70001
def caddrTimeVersion : Int32 := 31402
def nodeNetwork : UInt64 := 1

structure CAddress where
  nServices : UInt64
  nTime : UInt32
  ip : Bytes
  port : UInt16
  deriving DecidableEq, Repr

structure CInv where
  type : Int32
  hash : UInt256
  deriving DecidableEq, Repr

/-- The handler of a command starts, or a version message has been processed completely. -/
inductive PeerLog
  | handler (command : Command)
  | handshake
  deriving DecidableEq, Repr

/-- What the handling of messages uses. `vSendMsg` lists the messages pushed, `log` is kept as
history. -/
structure CNode where
  nVersion : Int32
  nServices : UInt64
  strSubVer : Bytes
  nStartingHeight : Int32
  fRelayTxes : Bool
  addrLocal : Option CAddress
  fInbound : Bool
  fOneShot : Bool
  fClient : Bool
  fGetAddr : Bool
  fSuccessfullyConnected : Bool
  fDisconnect : Bool
  nMisbehavior : Int32
  nRecvVersion : Int32
  nSendVersion : Int32
  vSendMsg : List Command
  vRecvGetData : List CInv
  vRecvMsg : List CNetMessage
  log : List PeerLog
  deriving DecidableEq, Repr

open CNode

/-- The rest of the node. The handlers of the other commands are left open; none of them writes
the version of the peer. -/
structure PeerContext where
  hash : Bytes → UInt256
  network : Network
  nLocalHostNonce : UInt64
  isRoutable : CAddress → Bool
  fFewAddresses : Bool
  fLocal : Bool
  nBanScore : Int64
  fSendFull : Bool
  fDrop : Bool
  fLoading : Bool
  react : Command → Bytes → CNode → Except Failure Bool × CNode
  processGetData : CNode → CNode
  nVersion_react : ∀ command vRecv node, (react command vRecv node).2.nVersion = node.nVersion
  log_react : ∀ command vRecv node, (react command vRecv node).2.log = node.log
  nVersion_processGetData : ∀ node, (processGetData node).nVersion = node.nVersion
  log_processGetData : ∀ node, (processGetData node).log = node.log

namespace CNode

def closeSocketDisconnect (node : CNode) : CNode :=
  { node with fDisconnect := true, vRecvMsg := [] }

def misbehaving (context : PeerContext) (howmuch : Int32) (node : CNode) : CNode :=
  if context.fLocal then node
  else
    let node := { node with nMisbehavior := node.nMisbehavior + howmuch }
    if context.nBanScore ≤ node.nMisbehavior.toInt64 then node.closeSocketDisconnect else node

def pushMessage (command : Command) (node : CNode) : CNode :=
  { node with vSendMsg := node.vSendMsg ++ [command] }

def note (entry : PeerLog) (node : CNode) : CNode := { node with log := node.log ++ [entry] }

end CNode

/-- A handler works on the peer and on what is left of the message. -/
abbrev PeerM := Stateful (CNode × Bytes) Failure

namespace PeerM

def modifyNode (f : CNode → CNode) : PeerM Unit := modify fun s => (f s.1, s.2)

def endOfData : Failure := .exception "CDataStream::read() : end of data"

/-- `vRecv >> field` -/
def receive {α : Type} (r : Reader UInt8 α) (store : α → CNode → CNode) : PeerM α :=
  extract (fun _ => endOfData) r store

/-- Why a compact size could not be read: it is cut off or too large. -/
def sizeFailure : Bytes → Failure
  | [] => endOfData
  | chSize :: rest =>
    if rest.length < (if chSize = 253 then 2 else if chSize = 254 then 4 else 8) then endOfData
    else .exception "ReadCompactSize() : size too large"

end PeerM

open PeerM

def readInt32 : Reader UInt8 Int32 := do
  let n ← readLE 4
  pure (Int32.ofNat n)

def readInt64 : Reader UInt8 Int64 := do
  let n ← readLE 8
  pure (Int64.ofNat n)

def readUInt64 : Reader UInt8 UInt64 := do
  let n ← readLE 8
  pure (UInt64.ofNat n)

def readBool : Reader UInt8 Bool := do
  let b ← next
  pure (b != 0)

/-- The time is sent from a certain protocol version on, and the port in network order. -/
def readAddress (nVersion : Int32) : Reader UInt8 CAddress := do
  let nTime ← if caddrTimeVersion ≤ nVersion then readLE 4 else pure 100000000
  let nServices ← readLE 8
  let ip ← take 16
  let portHigh ← next
  let portLow ← next
  pure ⟨UInt64.ofNat nServices, UInt32.ofNat nTime, ip,
    UInt16.ofNat (256 * portHigh.toNat + portLow.toNat)⟩

/-- The fields every version message has. -/
structure VersionHead where
  nVersion : Int32
  nServices : UInt64
  nTime : Int64
  addrMe : CAddress

variable (nRecvVersion : Int32)

def readVersionHead : Reader UInt8 VersionHead := do
  let nVersion ← readInt32
  let nServices ← readUInt64
  let nTime ← readInt64
  let addrMe ← readAddress nRecvVersion
  pure ⟨nVersion, nServices, nTime, addrMe⟩

/-- The nonce and the fields after it, each only if there is anything left. -/
def readVersionTail : Reader UInt8 UInt64 := do
  let nNonce ← atEnd >>= fun fEnd =>
    if fEnd then pure 1 else readAddress nRecvVersion >>= fun _ => readUInt64
  atEnd >>= fun fEnd =>
    if fEnd then pure () else readCompactSize >>= fun nSize => take nSize >>= fun _ => pure ()
  atEnd >>= fun fEnd => if fEnd then pure () else readInt32 >>= fun _ => pure ()
  atEnd >>= fun fEnd => if fEnd then pure () else readBool >>= fun _ => pure ()
  pure nNonce

/-- `>> pfrom->nServices >> nTime >> addrMe` -/
def receiveServices (nRecvVersion nVersion : Int32) : PeerM VersionHead := do
  let nServices ← receive readUInt64 fun nServices node =>
    { node with nServices := nServices }
  let nTime ← receive readInt64 fun _ node => node
  let addrMe ← receive (readAddress nRecvVersion) fun _ node => node
  pure ⟨nVersion, nServices, nTime, addrMe⟩

/-- `vRecv >> pfrom->nVersion >> pfrom->nServices >> nTime >> addrMe` -/
def receiveVersionHead : PeerM VersionHead := do
  let nVersion ← receive readInt32 fun nVersion node => { node with nVersion := nVersion }
  receiveServices nRecvVersion nVersion

/-- `vRecv >> pfrom->strSubVer`: the string gets its size before its bytes. -/
def receiveSubVer : PeerM Unit := do
  let nSize ← extract sizeFailure readCompactSize fun nSize node =>
    { node with strSubVer := List.replicate nSize 0 }
  let _ ← receive (take nSize) fun strSubVer node => { node with strSubVer := strSubVer }
  pure ()

def receiveVersionTail : PeerM UInt64 := do
  let nNonce ← get >>= fun s =>
    if s.2.isEmpty then pure 1
    else receive (readAddress nRecvVersion) (fun _ node => node) >>= fun _ =>
      receive readUInt64 fun _ node => node
  get >>= fun s => if s.2.isEmpty then pure () else receiveSubVer
  get >>= fun s =>
    if s.2.isEmpty then pure ()
    else receive readInt32 (fun nStartingHeight node =>
      { node with nStartingHeight := nStartingHeight }) >>= fun _ => pure ()
  get >>= fun s =>
    if s.2.isEmpty then modifyNode fun node => { node with fRelayTxes := true }
    else receive readBool (fun fRelayTxes node =>
      { node with fRelayTxes := fRelayTxes }) >>= fun _ => pure ()
  pure nNonce

variable (context : PeerContext)

def acceptVersion (node : CNode) : CNode :=
  let node := if node.fInbound then node.pushMessage .version else node
  let node := { node with fClient := node.nServices &&& nodeNetwork == 0 }
  let node := node.pushMessage .verack
  let node := { node with nSendVersion := min node.nVersion protocolVersion }
  let node :=
    if !node.fInbound &&
        (node.fOneShot || caddrTimeVersion ≤ node.nVersion || context.fFewAddresses) then
      { node.pushMessage .getaddr with fGetAddr := true }
    else node
  { node with fSuccessfullyConnected := true }

def judgeVersion (nRecvVersion : Int32) (head : VersionHead) : PeerM Bool :=
  if head.nVersion < minProtoVersion then do
    modifyNode fun node => { node with fDisconnect := true }
    pure false
  else do
    modifyNode fun node =>
      { node with nVersion := if node.nVersion = 10300 then 300 else node.nVersion }
    let nNonce ← receiveVersionTail nRecvVersion
    modifyNode fun node =>
      { node with addrLocal :=
          if node.fInbound && context.isRoutable head.addrMe then some head.addrMe
          else node.addrLocal }
    if nNonce = context.nLocalHostNonce ∧ 1 < nNonce then
      modifyNode fun node => { node with fDisconnect := true }
      pure true
    else
      modifyNode fun node => (acceptVersion context node).note .handshake
      pure true

def processVersion : PeerM Bool := do
  let s ← get
  if s.1.nVersion ≠ 0 then
    modifyNode (misbehaving context 1)
    pure false
  else
    let head ← receiveVersionHead s.1.nRecvVersion
    judgeVersion context s.1.nRecvVersion head

namespace PeerM

variable {γ : Type} {f : CNode → γ}

theorem extracts_modifyNode (g : CNode → CNode) :
    Extracts (modifyNode g) (pure () : Reader UInt8 Unit) := extracts_modify g

theorem keeps_modifyNode {g : CNode → CNode} (h : ∀ node, f (g node) = f node) :
    Keeps (fun s => f s.1) (modifyNode g) := keeps_modify fun s => h s.1

theorem keeps_receive {α : Type} {r : Reader UInt8 α} {store : α → CNode → CNode}
    (h : ∀ a node, f (store a node) = f node) : Keeps (fun s => f s.1) (receive r store) :=
  keeps_extract _ r store h

end PeerM

theorem extracts_receiveVersionHead :
    Extracts (receiveVersionHead nRecvVersion) (readVersionHead nRecvVersion) :=
  (extracts_extract _ _ _).bind fun _ => (extracts_extract _ _ _).bind fun _ =>
    (extracts_extract _ _ _).bind fun _ => (extracts_extract _ _ _).bind fun _ =>
      extracts_pure _

theorem extracts_receiveVersionTail :
    Extracts (receiveVersionTail nRecvVersion) (readVersionTail nRecvVersion) := by
  refine ((extracts_pure 1).unlessAtEnd ((extracts_extract _ _ _).bind fun _ =>
    extracts_extract _ _ _)).bind fun nNonce => ?_
  refine ((extracts_pure ()).unlessAtEnd ((extracts_extract _ _ _).bind fun _ =>
    (extracts_extract _ _ _).bind fun _ => extracts_pure ())).bind fun _ => ?_
  refine ((extracts_pure ()).unlessAtEnd ((extracts_extract _ _ _).bind fun _ =>
    extracts_pure ())).bind fun _ => ?_
  refine ((extracts_modifyNode _).unlessAtEnd ((extracts_extract _ _ _).bind fun _ =>
    extracts_pure ())).bind fun _ => ?_
  exact extracts_pure nNonce

/-- A component of the peer that the fields of a version message are not stored in. -/
structure Untouched {γ : Type} (f : CNode → γ) : Prop where
  services : ∀ nServices node, f { node with nServices := nServices } = f node
  obsolete : ∀ node, f { node with fDisconnect := true } = f node
  renumbered : ∀ node,
    f { node with nVersion := if node.nVersion = 10300 then 300 else node.nVersion } = f node
  subVer : ∀ strSubVer node, f { node with strSubVer := strSubVer } = f node
  height : ∀ nStartingHeight node, f { node with nStartingHeight := nStartingHeight } = f node
  relay : ∀ fRelayTxes node, f { node with fRelayTxes := fRelayTxes } = f node
  addrLocal : ∀ (addrLocal : CNode → Option CAddress) node,
    f { node with addrLocal := addrLocal node } = f node

namespace Untouched

variable {γ : Type} {f : CNode → γ}

theorem keeps_receiveServices (h : Untouched f) (nRecvVersion nVersion : Int32) :
    Keeps (fun s => f s.1) (receiveServices nRecvVersion nVersion) :=
  (keeps_receive h.services).bind fun _ => (keeps_receive fun _ _ => rfl).bind fun _ =>
    (keeps_receive fun _ _ => rfl).bind fun _ => keeps_pure _

theorem keeps_receiveVersionHead (h : Untouched f)
    (hversion : ∀ nVersion node, f { node with nVersion := nVersion } = f node)
    (nRecvVersion : Int32) : Keeps (fun s => f s.1) (receiveVersionHead nRecvVersion) :=
  (keeps_receive hversion).bind (h.keeps_receiveServices nRecvVersion)

theorem keeps_receiveVersionTail (h : Untouched f) (nRecvVersion : Int32) :
    Keeps (fun s => f s.1) (receiveVersionTail nRecvVersion) := by
  refine Keeps.bind (keeps_get.bind fun s => .ite (keeps_pure 1) ?_) fun nNonce => ?_
  · exact (keeps_receive fun _ _ => rfl).bind fun _ => keeps_receive fun _ _ => rfl
  refine Keeps.bind (keeps_get.bind fun s => .ite (keeps_pure ()) ?_) fun _ => ?_
  · exact (keeps_extract _ _ _ fun nSize => h.subVer _).bind fun nSize =>
      (keeps_receive h.subVer).bind fun _ => keeps_pure ()
  refine Keeps.bind (keeps_get.bind fun s => .ite (keeps_pure ()) ?_) fun _ => ?_
  · exact (keeps_receive h.height).bind fun _ => keeps_pure ()
  refine Keeps.bind (keeps_get.bind fun s => .ite (keeps_modifyNode (h.relay true)) ?_)
    fun _ => keeps_pure nNonce
  exact (keeps_receive h.relay).bind fun _ => keeps_pure ()

theorem keeps_judgeVersion (h : Untouched f) {context : PeerContext}
    (haccept : ∀ node, f ((acceptVersion context node).note .handshake) = f node)
    (nRecvVersion : Int32) (head : VersionHead) :
    Keeps (fun s => f s.1) (judgeVersion context nRecvVersion head) := by
  refine .ite ?_ ?_
  · exact (keeps_modifyNode h.obsolete).bind fun _ => keeps_pure false
  refine (keeps_modifyNode h.renumbered).bind fun _ => ?_
  refine (h.keeps_receiveVersionTail nRecvVersion).bind fun nNonce => ?_
  refine (keeps_modifyNode (h.addrLocal _)).bind fun _ => .ite ?_ ?_
  · exact (keeps_modifyNode h.obsolete).bind fun _ => keeps_pure true
  · exact (keeps_modifyNode haccept).bind fun _ => keeps_pure true

end Untouched

namespace CNode

def unversioned (node : CNode) : Bool := node.nVersion == 0

end CNode

theorem untouched_unversioned : Untouched unversioned := by
  refine ⟨fun _ _ => rfl, fun _ => rfl, fun node => ?_, fun _ _ => rfl, fun _ _ => rfl,
    fun _ _ => rfl, fun _ _ => rfl⟩
  simp only [unversioned]
  split_ifs with h
  · rw [h]
    rfl
  · rfl

theorem untouched_log : Untouched log :=
  ⟨fun _ _ => rfl, fun _ => rfl, fun _ => rfl, fun _ _ => rfl, fun _ _ => rfl, fun _ _ => rfl,
    fun _ _ => rfl⟩

theorem untouched_vRecvGetData : Untouched vRecvGetData :=
  ⟨fun _ _ => rfl, fun _ => rfl, fun _ => rfl, fun _ _ => rfl, fun _ _ => rfl, fun _ _ => rfl,
    fun _ _ => rfl⟩

def versionSent (vRecv : Bytes) : Bool := (readInt32 vRecv).any fun v => v.1 != 0

/-- The first fields are those of a supported version, the others can be read, and the message is
not our own. -/
def headAccepted (nRecvVersion : Int32) (head : VersionHead) (rest : Bytes) : Bool :=
  !decide (head.nVersion < minProtoVersion) && (readVersionTail nRecvVersion rest).any fun tail =>
    !decide (tail.1 = context.nLocalHostNonce ∧ 1 < tail.1)

def versionComplete (nRecvVersion : Int32) (vRecv : Bytes) : Bool :=
  (readVersionHead nRecvVersion vRecv).any fun head =>
    headAccepted context nRecvVersion head.1 head.2

theorem readInt32_of_readVersionHead {nRecvVersion : Int32} {vRecv rest : Bytes}
    {head : VersionHead} (h : readVersionHead nRecvVersion vRecv = some (head, rest)) :
    ∃ left, readInt32 vRecv = some (head.nVersion, left) := by
  simp only [readVersionHead, bind, StateT.bind, bind_eq_some_iff] at h
  obtain ⟨⟨nVersion, left⟩, hread, _, _, _, _, _, _, hpure⟩ := h
  cases hpure
  exact ⟨left, hread⟩

theorem versionSent_of_versionComplete {context : PeerContext} {nRecvVersion : Int32}
    {vRecv : Bytes} (h : versionComplete context nRecvVersion vRecv = true) :
    versionSent vRecv = true := by
  rw [versionComplete, any_eq_true] at h
  obtain ⟨⟨head, rest⟩, hread, haccepted⟩ := h
  obtain ⟨left, hversion⟩ := readInt32_of_readVersionHead hread
  rw [headAccepted, Bool.and_eq_true, Bool.not_eq_true', decide_eq_false_iff_not] at haccepted
  rw [versionSent, hversion, any_some, bne_iff_ne]
  intro hzero
  have hobsolete : head.nVersion < minProtoVersion := by
    rw [show head.nVersion = 0 from hzero]
    decide
  exact haccepted.1 hobsolete

section ProcessVersion

variable {context : PeerContext} {node : CNode} {vRecv : Bytes}

section

variable (context : PeerContext)

theorem unversioned_acceptVersion (node : CNode) :
    (acceptVersion context node).unversioned = node.unversioned := by
  simp only [acceptVersion, unversioned, pushMessage]
  split_ifs <;> rfl

theorem log_acceptVersion (node : CNode) : (acceptVersion context node).log = node.log := by
  simp only [acceptVersion, pushMessage]
  split_ifs <;> rfl

theorem vRecvGetData_acceptVersion (node : CNode) :
    (acceptVersion context node).vRecvGetData = node.vRecvGetData := by
  simp only [acceptVersion, pushMessage]
  split_ifs <;> rfl

end

/-- The version is there as soon as its four bytes have been read. -/
theorem unversioned_receiveVersionHead (hnode : node.nVersion = 0) (nRecvVersion : Int32) :
    ((receiveVersionHead nRecvVersion).run (node, vRecv)).2.1.unversioned = !versionSent vRecv := by
  have hrun := run_bind_of_keeps (untouched_unversioned.keeps_receiveServices nRecvVersion)
    (receive readInt32 fun nVersion node => { node with nVersion := nVersion })
    (node, vRecv)
  refine hrun.trans ?_
  rw [versionSent]
  cases hread : readInt32 vRecv with
  | none =>
    rw [receive, run_extract_of_none _ _ _ hread]
    simp [unversioned, hnode]
  | some v =>
    rw [receive, run_extract_of_some _ _ _ hread]
    simp [unversioned, bne]

theorem run_processVersion (hnode : node.nVersion = 0) :
    (processVersion context).run (node, vRecv) =
      (receiveVersionHead node.nRecvVersion >>= judgeVersion context node.nRecvVersion).run
        (node, vRecv) := by
  rw [processVersion, run_get_bind, if_neg (not_not.mpr hnode)]

theorem unversioned_processVersion (hnode : node.nVersion = 0) :
    ((processVersion context).run (node, vRecv)).2.1.unversioned = !versionSent vRecv := by
  have haccept : ∀ node : CNode,
      ((acceptVersion context node).note .handshake).unversioned = node.unversioned :=
    fun node => unversioned_acceptVersion context node
  have hkeeps := untouched_unversioned.keeps_judgeVersion haccept node.nRecvVersion
  rw [run_processVersion hnode]
  exact (run_bind_of_keeps hkeeps _ _).trans (unversioned_receiveVersionHead hnode _)

theorem log_judgeVersion (nRecvVersion : Int32) (head : VersionHead) :
    ((judgeVersion context nRecvVersion head).run (node, vRecv)).2.1.log =
      if headAccepted context nRecvVersion head vRecv then node.log ++ [.handshake]
      else node.log := by
  rw [judgeVersion, headAccepted]
  by_cases hobsolete : head.nVersion < minProtoVersion
  · simp [hobsolete, modifyNode, run_modify_bind]
  · rw [if_neg hobsolete, modifyNode, run_modify_bind]
    set node₁ : CNode :=
      { node with nVersion := if node.nVersion = 10300 then 300 else node.nVersion }
    have hlog : _ = node.log := untouched_log.keeps_receiveVersionTail nRecvVersion (node₁, vRecv)
    cases hread : readVersionTail nRecvVersion vRecv with
    | none =>
      obtain ⟨e, t, hrun⟩ := (extracts_receiveVersionTail nRecvVersion node₁ vRecv).2 hread
      rw [run_bind_of_error hrun, any_none, Bool.and_false, if_neg Bool.false_ne_true]
      rw [hrun] at hlog
      exact hlog
    | some tail =>
      obtain ⟨node₂, hrun⟩ :=
        (extracts_receiveVersionTail nRecvVersion node₁ vRecv).1 tail.1 tail.2 hread
      rw [run_bind_of_ok hrun, modifyNode, run_modify_bind, any_some,
        decide_eq_false hobsolete, Bool.not_false, Bool.true_and]
      rw [hrun] at hlog
      by_cases hown : tail.1 = context.nLocalHostNonce ∧ 1 < tail.1
      · rw [if_pos hown, decide_eq_true hown, Bool.not_true, if_neg Bool.false_ne_true]
        exact hlog
      · rw [if_neg hown, decide_eq_false hown, Bool.not_false, if_pos rfl]
        exact congrArg (· ++ [PeerLog.handshake]) ((log_acceptVersion context _).trans hlog)

/-- The handler gets to its end just when the message is complete. -/
theorem log_processVersion (hnode : node.nVersion = 0) :
    ((processVersion context).run (node, vRecv)).2.1.log =
      if versionComplete context node.nRecvVersion vRecv then node.log ++ [.handshake]
      else node.log := by
  have hlog : _ = node.log := untouched_log.keeps_receiveVersionHead (fun _ _ => rfl)
    node.nRecvVersion (node, vRecv)
  rw [run_processVersion hnode, versionComplete]
  cases hread : readVersionHead node.nRecvVersion vRecv with
  | none =>
    obtain ⟨e, t, hrun⟩ := (extracts_receiveVersionHead node.nRecvVersion node vRecv).2 hread
    rw [run_bind_of_error hrun, any_none, if_neg Bool.false_ne_true]
    rw [hrun] at hlog
    exact hlog
  | some head =>
    obtain ⟨node₁, hrun⟩ :=
      (extracts_receiveVersionHead node.nRecvVersion node vRecv).1 head.1 head.2 hread
    have hlog₁ : node₁.log = node.log := by
      rw [hrun] at hlog
      exact hlog
    rw [run_bind_of_ok hrun, log_judgeVersion, any_some, hlog₁]

theorem keeps_processVersion_vRecvGetData (context : PeerContext) :
    Keeps (fun s : CNode × Bytes => s.1.vRecvGetData) (processVersion context) := by
  refine keeps_get.bind fun s => .ite ?_ ?_
  · refine (keeps_modifyNode fun node => ?_).bind fun _ => keeps_pure false
    simp only [misbehaving, closeSocketDisconnect]
    split_ifs <;> rfl
  · exact (untouched_vRecvGetData.keeps_receiveVersionHead (fun _ _ => rfl) _).bind
      (untouched_vRecvGetData.keeps_judgeVersion
        (fun node => vRecvGetData_acceptVersion context node) _)

end ProcessVersion

end Primecoin
