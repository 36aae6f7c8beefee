import Primecoin.Net.Version

/-!
# Processing the messages of a peer

`poll` is one turn of the message handler thread for a peer: it processes at most one message, and
the exceptions of the handler end in `processMessages`. Messages arrive and the connection may go
away between two turns.

A peer must have sent its version before anything else is handled. The version handler stores the
version before it has read the rest of the message, so a message cut off after the version opens
the other handlers just as well.
-/

namespace Primecoin

open Codec Stateful List

variable (context : PeerContext) (command : Command)

def PeerContext.handleWith : PeerM Bool := do
  PeerM.modifyNode (CNode.note (.handler command))
  fun s => ((context.react command s.2 s.1).1, ((context.react command s.2 s.1).2, s.2))

/-- The branches behind the check for a version. Blocks are ignored while blocks are loaded from
disk. -/
def dispatch : Command → PeerM Bool
  | .verack => do
      PeerM.modifyNode (CNode.note (.handler .verack))
      PeerM.modifyNode fun node => { node with nRecvVersion := min node.nVersion protocolVersion }
      pure true
  | .block => if context.fLoading then pure true else context.handleWith .block
  | .unknown => pure true
  | command => context.handleWith command

def processMessage : PeerM Bool :=
  if context.fDrop then pure true
  else if command = .version then do
    PeerM.modifyNode (CNode.note (.handler .version))
    processVersion context
  else do
    let s ← get
    if s.1.nVersion = 0 then
      PeerM.modifyNode (CNode.misbehaving context 1)
      pure false
    else dispatch context command

namespace CNode

variable (node : CNode)

/-- Requests that were left over are answered first. -/
def answerGetData : CNode :=
  if node.vRecvGetData.isEmpty then node
  else context.processGetData (node.note (.handler .getdata))

/-- The loop ends with the first message it processes. -/
def processQueue : Bool × CNode :=
  if node.fDisconnect || context.fSendFull then (true, node)
  else
    match scan context.hash context.network node.vRecvMsg with
    | .none => (true, { node with vRecvMsg := [] })
    | .badStart rest => (false, { node with vRecvMsg := rest })
    | .message msg rest =>
      let node' := ((processMessage context msg.command).run (node, msg.vRecv)).2.1
      (true, { node' with vRecvMsg := if node'.fDisconnect then node'.vRecvMsg else rest })

def processMessages : Bool × CNode :=
  let node := node.answerGetData context
  if node.vRecvGetData.isEmpty then node.processQueue context else (true, node)

/-- The turn of a peer in `ThreadMessageHandler`. -/
def poll : CNode :=
  if node.fDisconnect then node
  else
    let result := node.processMessages context
    if result.1 then result.2 else result.2.closeSocketDisconnect

def new (fInbound fOneShot : Bool) : CNode where
  nVersion := 0
  nServices := 0
  strSubVer := []
  nStartingHeight := -1
  fRelayTxes := false
  addrLocal := none
  fInbound := fInbound
  fOneShot := fOneShot
  fClient := false
  fGetAddr := false
  fSuccessfullyConnected := false
  fDisconnect := false
  nMisbehavior := 0
  nRecvVersion := minProtoVersion
  nSendVersion := minProtoVersion
  vSendMsg := if fInbound then [] else [.version]
  vRecvGetData := []
  vRecvMsg := []
  log := []

end CNode

inductive PeerEvent
  | receive (msg : CNetMessage)
  | poll (context : PeerContext)
  | disconnect

namespace CNode

variable (node : CNode)

def step : PeerEvent → CNode
  | .receive msg => { node with vRecvMsg := node.vRecvMsg ++ [msg] }
  | .poll context => node.poll context
  | .disconnect => node.closeSocketDisconnect

def run (events : List PeerEvent) : CNode := events.foldl step node

/-- No handler but that of `version` has started before a version message was processed
completely, and until then the peer has no version. -/
structure Waits (node : CNode) : Prop where
  unversioned : .handshake ∉ node.log → node.nVersion = 0
  handlers : ∀ past command later, node.log = past ++ .handler command :: later →
    command ≠ .version → .handshake ∈ past

/-- The version message that the next turn hands to the handler of a peer without a version. -/
def versionNext : Option Bytes :=
  if node.fDisconnect || !node.vRecvGetData.isEmpty || context.fSendFull || context.fDrop ||
      node.nVersion != 0 then none
  else
    match scan context.hash context.network node.vRecvMsg with
    | .message msg _ => if msg.command = .version then some msg.vRecv else none
    | _ => none

/-- If that message has a version other than 0 at its start, it is complete. -/
def Sound : Prop :=
  ∀ vRecv ∈ node.versionNext context,
    versionSent vRecv = true → versionComplete context node.nRecvVersion vRecv = true

variable {context : PeerContext} {node : CNode} {node' : CNode} {vRecv : Bytes}

section

variable (context : PeerContext) (howmuch : Int32)

@[simp] theorem nVersion_misbehaving (node : CNode) :
    (misbehaving context howmuch node).nVersion = node.nVersion := by
  simp only [misbehaving, closeSocketDisconnect]
  split_ifs <;> rfl

@[simp] theorem log_misbehaving (node : CNode) :
    (misbehaving context howmuch node).log = node.log := by
  simp only [misbehaving, closeSocketDisconnect]
  split_ifs <;> rfl

@[simp] theorem vRecvGetData_misbehaving (node : CNode) :
    (misbehaving context howmuch node).vRecvGetData = node.vRecvGetData := by
  simp only [misbehaving, closeSocketDisconnect]
  split_ifs <;> rfl

end

/-- What is later: the log has grown, and the version is the same. -/
structure After (node node' : CNode) : Prop where
  log : node.log <+: node'.log
  nVersion : node'.nVersion = node.nVersion

theorem After.refl (node : CNode) : After node node := ⟨prefix_rfl, rfl⟩

theorem After.trans {node'' : CNode} (h : After node node') (h' : After node' node'') :
    After node node'' := ⟨h.log.trans h'.log, h'.nVersion.trans h.nVersion⟩

theorem after_note (entry : PeerLog) (node : CNode) : After node (node.note entry) :=
  ⟨prefix_append _ _, rfl⟩

theorem after_misbehaving (howmuch : Int32) : After node (misbehaving context howmuch node) :=
  ⟨by rw [log_misbehaving], nVersion_misbehaving _ _ _⟩

theorem after_handleWith (command : Command) (vRecv : Bytes) :
    After node ((context.handleWith command).run (node, vRecv)).2.1 := by
  refine (after_note (.handler command) node).trans ⟨?_, ?_⟩
  · exact (context.log_react command vRecv _).symm ▸ prefix_rfl
  · exact context.nVersion_react command vRecv _

theorem after_dispatch (command : Command) (vRecv : Bytes) :
    After node ((dispatch context command).run (node, vRecv)).2.1 := by
  cases command with
  | verack => exact ⟨prefix_append _ _, rfl⟩
  | block =>
    rw [dispatch]
    split_ifs
    · exact .refl node
    · exact after_handleWith _ _
  | unknown => exact .refl node
  | _ => exact after_handleWith _ _

theorem after_processMessage (hnode : node.nVersion ≠ 0) (command : Command) (vRecv : Bytes) :
    After node ((processMessage context command).run (node, vRecv)).2.1 := by
  rw [processMessage]
  split_ifs
  · exact .refl node
  · rw [PeerM.modifyNode, run_modify_bind, processVersion, run_get_bind]
    have hversion : (node.note (.handler .version)).nVersion ≠ 0 := hnode
    rw [if_pos hversion]
    exact (after_note _ node).trans (after_misbehaving 1)
  · rw [run_get_bind, if_neg hnode]
    exact after_dispatch command vRecv

theorem after_processQueue (hnode : node.nVersion ≠ 0) :
    After node (node.processQueue context).2 := by
  rw [processQueue]
  split_ifs
  · exact .refl node
  · split
    · exact ⟨prefix_rfl, rfl⟩
    · exact ⟨prefix_rfl, rfl⟩
    · next msg rest _ =>
        have hafter : After node ((processMessage context msg.command).run (node, msg.vRecv)).2.1 :=
          after_processMessage hnode msg.command msg.vRecv
        exact ⟨hafter.log, hafter.nVersion⟩

theorem after_answerGetData : After node (node.answerGetData context) := by
  rw [answerGetData]
  split_ifs
  · exact .refl node
  · refine (after_note (.handler .getdata) node).trans ⟨?_, ?_⟩
    · rw [context.log_processGetData]
    · exact context.nVersion_processGetData _

theorem after_processMessages (hnode : node.nVersion ≠ 0) :
    After node (node.processMessages context).2 := by
  have hanswer : After node (node.answerGetData context) := after_answerGetData
  simp only [processMessages]
  split_ifs
  · refine hanswer.trans (after_processQueue ?_)
    rwa [hanswer.nVersion]
  · exact hanswer

theorem after_poll (hnode : node.nVersion ≠ 0) : After node (node.poll context) := by
  have hafter : After node (node.processMessages context).2 := after_processMessages hnode
  simp only [poll]
  split_ifs
  · exact .refl node
  · exact hafter
  · exact ⟨hafter.log, hafter.nVersion⟩

theorem Waits.append (h : node.Waits) {more : List PeerLog} (hlog : node'.log = node.log ++ more)
    (hmore : ∀ command, .handler command ∈ more → command ≠ .version → .handshake ∈ node.log)
    (hversion : .handshake ∉ node'.log → node'.nVersion = 0) : node'.Waits := by
  refine ⟨hversion, fun past command later hsplit hne => ?_⟩
  rw [hlog] at hsplit
  rcases append_eq_append_iff.mp hsplit with ⟨between, hpast, hrest⟩ | ⟨between, hnode, hrest⟩
  · have hshake := hmore command (hrest ▸ mem_append_right _ mem_cons_self) hne
    exact hpast ▸ mem_append_left _ hshake
  · cases between with
    | nil =>
      rw [nil_append] at hrest
      rw [append_nil] at hnode
      exact hnode ▸ hmore command (hrest ▸ mem_cons_self) hne
    | cons entry between =>
      rw [cons_append, List.cons.injEq] at hrest
      exact h.handlers past command between (hrest.1 ▸ hnode) hne

theorem Waits.after (h : node.Waits) (hshake : .handshake ∈ node.log)
    (hafter : After node node') : node'.Waits := by
  obtain ⟨more, hmore⟩ := hafter.log
  exact h.append hmore.symm (fun _ _ _ => hshake) fun hnot => absurd (hafter.log.subset hshake) hnot

/-- Nothing of the peer has changed that a version depends on. -/
structure Idle (node node' : CNode) : Prop where
  nVersion : node'.nVersion = node.nVersion
  log : node'.log = node.log
  vRecvGetData : node'.vRecvGetData = node.vRecvGetData

theorem Idle.refl (node : CNode) : Idle node node := ⟨rfl, rfl, rfl⟩

theorem Waits.idle (h : node.Waits) (hidle : Idle node node') : node'.Waits := by
  have hlog : node'.log = node.log ++ [] := by rw [hidle.log, append_nil]
  refine h.append hlog (fun _ hmem => absurd hmem not_mem_nil) fun hnot => ?_
  rw [hidle.nVersion]
  exact h.unversioned (hidle.log ▸ hnot)

theorem idle_processMessage (hnode : node.nVersion = 0) {command : Command}
    (hcommand : context.fDrop = true ∨ command ≠ .version) (vRecv : Bytes) :
    Idle node ((processMessage context command).run (node, vRecv)).2.1 := by
  rw [processMessage]
  split_ifs with hdrop hversion
  · exact .refl node
  · exact absurd hversion (hcommand.resolve_left hdrop)
  · rw [run_get_bind, if_pos hnode]
    exact ⟨nVersion_misbehaving _ _ _, log_misbehaving _ _ _, vRecvGetData_misbehaving _ _ _⟩

structure Greeted (context : PeerContext) (vRecv : Bytes) (node node' : CNode) : Prop where
  unversioned : node'.unversioned = !versionSent vRecv
  log : node'.log = node.log ++ if versionComplete context node.nRecvVersion vRecv then
      [.handler .version, .handshake] else [.handler .version]
  vRecvGetData : node'.vRecvGetData = node.vRecvGetData

theorem greeted_processMessage (hnode : node.nVersion = 0) (hdrop : context.fDrop = false)
    {command : Command} (hcommand : command = .version) (vRecv : Bytes) :
    Greeted context vRecv node ((processMessage context command).run (node, vRecv)).2.1 := by
  have hnoted : (node.note (.handler .version)).nVersion = 0 := hnode
  rw [processMessage, hdrop, if_neg Bool.false_ne_true, if_pos hcommand, PeerM.modifyNode,
    run_modify_bind]
  refine ⟨unversioned_processVersion hnoted, ?_, keeps_processVersion_vRecvGetData context _⟩
  rw [log_processVersion hnoted]
  change (if versionComplete context node.nRecvVersion vRecv then
    (node.log ++ [.handler .version]) ++ [.handshake] else node.log ++ [.handler .version]) = _
  split_ifs
  · rw [append_assoc]
    rfl
  · rfl

theorem poll_of_vRecvGetData_eq_nil (hget : node.vRecvGetData = [])
    (hdisconnect : node.fDisconnect = false) :
    node.poll context = if (node.processQueue context).1 then (node.processQueue context).2
      else (node.processQueue context).2.closeSocketDisconnect := by
  simp [poll, processMessages, answerGetData, hdisconnect, hget]

/-- A turn that hands no version message to the handler leaves such a peer as it is. -/
theorem idle_poll (hnode : node.nVersion = 0) (hget : node.vRecvGetData = [])
    (hnext : node.versionNext context = none) : Idle node (node.poll context) := by
  cases hdisconnect : node.fDisconnect with
  | true =>
    rw [poll, if_pos hdisconnect]
    exact .refl node
  | false =>
    rw [poll_of_vRecvGetData_eq_nil hget hdisconnect, processQueue, hdisconnect, Bool.false_or]
    cases hfull : context.fSendFull with
    | true => exact .refl node
    | false =>
      simp only [versionNext, hdisconnect, hget, hfull, hnode, isEmpty_nil, Bool.not_true,
        Bool.false_or, bne_self_eq_false, Bool.or_false] at hnext
      rw [if_neg Bool.false_ne_true]
      cases hscan : scan context.hash context.network node.vRecvMsg with
      | none => exact ⟨rfl, rfl, rfl⟩
      | badStart rest => exact ⟨rfl, rfl, rfl⟩
      | message msg rest =>
        have hcommand : context.fDrop = true ∨ msg.command ≠ .version := by
          rw [hscan] at hnext
          by_contra! hnot
          simp [hnot.1, hnot.2] at hnext
        have hidle := idle_processMessage hnode hcommand msg.vRecv
        exact ⟨hidle.nVersion, hidle.log, hidle.vRecvGetData⟩

theorem greeted_poll (hnext : node.versionNext context = some vRecv) :
    Greeted context vRecv node (node.poll context) := by
  unfold versionNext at hnext
  split_ifs at hnext with hidle
  simp only [Bool.or_eq_true, not_or, Bool.not_eq_true, Bool.not_eq_false', bne_eq_false_iff_eq,
    List.isEmpty_iff] at hidle
  obtain ⟨⟨⟨⟨hdisconnect, hget⟩, hfull⟩, hdrop⟩, hnode⟩ := hidle
  cases hscan : scan context.hash context.network node.vRecvMsg with
  | none =>
    rw [hscan] at hnext
    cases hnext
  | badStart rest =>
    rw [hscan] at hnext
    cases hnext
  | message msg rest =>
    rw [hscan] at hnext
    obtain ⟨hversion, rfl⟩ : msg.command = .version ∧ msg.vRecv = vRecv := by
      simpa using hnext
    have hgreeted := greeted_processMessage hnode hdrop hversion msg.vRecv
    rw [poll_of_vRecvGetData_eq_nil hget hdisconnect, processQueue, hdisconnect, hfull,
      Bool.or_false, if_neg Bool.false_ne_true, hscan]
    exact ⟨hgreeted.unversioned, hgreeted.log, hgreeted.vRecvGetData⟩

/-- As long as the handlers have waited, a peer that has completed the handshake has a version,
and only such a peer has requests left over. -/
structure Linked (node : CNode) : Prop where
  versioned : .handshake ∈ node.log → node.nVersion ≠ 0
  getData : node.vRecvGetData ≠ [] → .handshake ∈ node.log

theorem Linked.idle (h : node.Linked) (hidle : Idle node node') : node'.Linked := by
  refine ⟨fun hshake => ?_, fun hget => ?_⟩
  · rw [hidle.nVersion]
    exact h.versioned (hidle.log ▸ hshake)
  · rw [hidle.log]
    exact h.getData (hidle.vRecvGetData ▸ hget)

theorem Linked.after (h : node.Linked) (hshake : .handshake ∈ node.log)
    (hafter : After node node') : node'.Linked := by
  refine ⟨fun _ => ?_, fun _ => hafter.log.subset hshake⟩
  rw [hafter.nVersion]
  exact h.versioned hshake

/-- A peer that has not completed the handshake has no version and no requests left over. -/
theorem Linked.vRecvGetData_eq_nil (h : node.Linked) (hshake : .handshake ∉ node.log) :
    node.vRecvGetData = [] := by
  by_contra hget
  exact hshake (h.getData hget)

theorem handshake_mem_log_iff
    (h : Greeted context vRecv node node') (hshake : .handshake ∉ node.log) :
    .handshake ∈ node'.log ↔ versionComplete context node.nRecvVersion vRecv = true := by
  rw [h.log, mem_append]
  split_ifs with hcomplete <;> simp [hcomplete, hshake]

theorem waits_greeted_iff (hwaits : node.Waits)
    (h : Greeted context vRecv node node') (hshake : .handshake ∉ node.log) :
    node'.Waits ↔
      (versionSent vRecv = true → versionComplete context node.nRecvVersion vRecv = true) := by
  have hmem := handshake_mem_log_iff h hshake
  constructor
  · intro hwaits' hsent
    by_contra hnot
    have hzero := hwaits'.unversioned (hmem.not.mpr hnot)
    have hunversioned := h.unversioned
    simp [unversioned, hzero, hsent] at hunversioned
  · intro hsound
    refine hwaits.append h.log (fun command hcommand hne => ?_) fun hnot => ?_
    · split_ifs at hcommand <;> simp [hne] at hcommand
    · have hsent := mt hsound (hmem.not.mp hnot)
      have hunversioned := h.unversioned
      simpa [unversioned, hsent] using hunversioned

theorem linked_greeted (hlinked : node.Linked)
    (h : Greeted context vRecv node node') (hshake : .handshake ∉ node.log) : node'.Linked := by
  refine ⟨fun hshake' hzero => ?_, fun hget => ?_⟩
  · have hcomplete := (handshake_mem_log_iff h hshake).mp hshake'
    have hunversioned := h.unversioned
    simp [unversioned, hzero, versionSent_of_versionComplete hcomplete] at hunversioned
  · rw [h.vRecvGetData] at hget
    exact absurd (hlinked.getData hget) hshake

theorem waits_poll_iff (hwaits : node.Waits) (hlinked : node.Linked) :
    (node.poll context).Waits ↔ node.Sound context := by
  by_cases hshake : .handshake ∈ node.log
  · have hnode := hlinked.versioned hshake
    refine iff_of_true (hwaits.after hshake (after_poll hnode)) fun vRecv hnext => ?_
    simp [versionNext, hnode] at hnext
  · rw [Sound]
    cases hnext : node.versionNext context with
    | none =>
      have hidle := idle_poll (hwaits.unversioned hshake) (hlinked.vRecvGetData_eq_nil hshake) hnext
      exact iff_of_true (hwaits.idle hidle) fun vRecv hmem => nomatch hmem
    | some vRecv =>
      rw [waits_greeted_iff hwaits (greeted_poll hnext) hshake]
      simp

theorem linked_poll (hwaits : node.Waits) (hlinked : node.Linked) : (node.poll context).Linked := by
  by_cases hshake : .handshake ∈ node.log
  · exact hlinked.after hshake (after_poll (hlinked.versioned hshake))
  · cases hnext : node.versionNext context with
    | none =>
      exact hlinked.idle
        (idle_poll (hwaits.unversioned hshake) (hlinked.vRecvGetData_eq_nil hshake) hnext)
    | some vRecv => exact linked_greeted hlinked (greeted_poll hnext) hshake

theorem linked_step (hwaits : node.Waits) (hlinked : node.Linked) (event : PeerEvent) :
    (node.step event).Linked := by
  cases event with
  | receive msg => exact hlinked.idle ⟨rfl, rfl, rfl⟩
  | poll context => exact linked_poll hwaits hlinked
  | disconnect => exact hlinked.idle ⟨rfl, rfl, rfl⟩

theorem waits_step (hwaits : node.Waits) (hlinked : node.Linked) {event : PeerEvent}
    (hsound : ∀ context, event = .poll context → node.Sound context) :
    (node.step event).Waits := by
  cases event with
  | receive msg => exact hwaits.idle ⟨rfl, rfl, rfl⟩
  | poll context => exact (waits_poll_iff hwaits hlinked).mpr (hsound context rfl)
  | disconnect => exact hwaits.idle ⟨rfl, rfl, rfl⟩

theorem run_concat (node : CNode) (events : List PeerEvent) (event : PeerEvent) :
    node.run (events ++ [event]) = (node.run events).step event := by
  rw [run, run, foldl_append, foldl_cons, foldl_nil]

variable {fInbound fOneShot : Bool} {events : List PeerEvent}

theorem waits_new : (new fInbound fOneShot).Waits :=
  ⟨fun _ => rfl, fun past command later h => by simp [new] at h⟩

theorem linked_new : (new fInbound fOneShot).Linked :=
  ⟨fun h => absurd h not_mem_nil, fun h => absurd rfl h⟩

theorem linked_run (h : ∀ past, past <+: events → ((new fInbound fOneShot).run past).Waits) :
    ((new fInbound fOneShot).run events).Linked := by
  induction events using reverseRecOn with
  | nil => exact linked_new
  | append_singleton events event ih =>
    have hpast : events <+: events ++ [event] := prefix_append _ _
    rw [run_concat]
    exact linked_step (h events hpast) (ih fun past hle => h past (hle.trans hpast)) event

theorem waits_linked_run (h : ∀ past context, past ++ [.poll context] <+: events →
      ((new fInbound fOneShot).run past).Sound context) :
    ((new fInbound fOneShot).run events).Waits ∧ ((new fInbound fOneShot).run events).Linked := by
  induction events using reverseRecOn with
  | nil => exact ⟨waits_new, linked_new⟩
  | append_singleton events event ih =>
    have hpast : events <+: events ++ [event] := prefix_append _ _
    obtain ⟨hwaits, hlinked⟩ := ih fun past context hle => h past context (hle.trans hpast)
    rw [run_concat]
    refine ⟨waits_step hwaits hlinked fun context hevent => ?_, linked_step hwaits hlinked event⟩
    exact h events context (hevent ▸ prefix_rfl)

/-- Whatever happens to a peer: no handler but that of `version` runs before a version message has
been processed completely, and until then the peer has no version, just when no turn hands over a
version message that begins with a version and is not complete. -/
theorem waits_run_iff (fInbound fOneShot : Bool) (events : List PeerEvent) :
    (∀ past, past <+: events → ((new fInbound fOneShot).run past).Waits) ↔
      ∀ past context, past ++ [.poll context] <+: events →
        ((new fInbound fOneShot).run past).Sound context := by
  constructor
  · intro h past context hle
    have hpast : past <+: events := (List.prefix_append _ _).trans hle
    have hlinked := linked_run fun before hbefore => h before (hbefore.trans hpast)
    rw [← waits_poll_iff (h past hpast) hlinked]
    have hnext := h _ hle
    rwa [run_concat] at hnext
  · intro h past hpast
    exact (waits_linked_run fun before context hle => h before context (hle.trans hpast)).1

def busyContext : PeerContext where
  hash data :=
    if data = [] then
      0x56944c5d3f98413ef45cf54545538103cc9f298e0575820ad3591376e2e0f65d
    else if data = [0x71, 0x11, 0x01, 0x00] then
      0x72ff734c691dc9adf5d2d06aba09455d78179e7aae0cbe3dd6a2faf85fd581aa
    else 0
  network := .official
  nLocalHostNonce := 0x5d1f3c2b9a887766
  isRoutable _ := false
  fFewAddresses := false
  fLocal := false
  nBanScore := 100
  fSendFull := false
  fDrop := false
  fLoading := false
  react _ _ node := (.ok true, node)
  processGetData node := node
  nVersion_react _ _ _ := rfl
  log_react _ _ _ := rfl
  nVersion_processGetData _ := rfl
  log_processGetData _ := rfl

/-- A version message that ends after the version 70001. -/
def cutVersion : CNetMessage where
  hdr :=
    { pchMessageStart := [0xe4, 0xe7, 0xe5, 0xe7]
      pchCommand := ascii ['v', 'e', 'r', 's', 'i', 'o', 'n'] ++ List.replicate 5 0
      nMessageSize := 4
      nChecksum := 0x5fd581aa }
  vRecv := [0x71, 0x11, 0x01, 0x00]

def getaddrMessage : CNetMessage where
  hdr :=
    { pchMessageStart := [0xe4, 0xe7, 0xe5, 0xe7]
      pchCommand := ascii ['g', 'e', 't', 'a', 'd', 'd', 'r'] ++ List.replicate 5 0
      nMessageSize := 0
      nChecksum := 0xe2e0f65d }
  vRecv := []

/-- The cut version message opens the handler of `getaddr`. -/
theorem not_waits_run_cutVersion :
    ((new true false).run [.receive cutVersion, .poll busyContext]).nVersion = 70001 ∧
    ((new true false).run [.receive cutVersion, .poll busyContext, .receive getaddrMessage,
      .poll busyContext]).log = [.handler .version, .handler .getaddr] ∧
    ¬ ∀ past, past <+: [.receive cutVersion, .poll busyContext, .receive getaddrMessage,
      .poll busyContext] → ((new true false).run past).Waits := by
  have hlog : ((new true false).run [.receive cutVersion, .poll busyContext,
      .receive getaddrMessage, .poll busyContext]).log = [.handler .version, .handler .getaddr] := by
    decide
  refine ⟨by decide, hlog, fun h => ?_⟩
  have hshake := (h _ List.prefix_rfl).handlers [.handler .version] .getaddr [] hlog (by decide)
  exact absurd hshake (by decide)

end CNode

end Primecoin
