import Servitals.Confd
import Servitals.Hub
import Servitals.NodeWrites

/-!
# A node as it is judged and as it is shown

The page shows a node with what `conf.d` sets of it; the alert engine is told of the node as the store has it: on a push
by `nodeName` and the record's tags, on the minute's check by the list.  Both agree with the page for every rule exactly
when the files give the node no other tags and no other name, and it has a name.
-/

namespace Servitals

namespace NodeStore

/-- A node of the list, as the engine takes it. -/
def Listed.node (l : Listed) : Node := ⟨l.id, l.name, l.tags⟩

/-- `nodeName` -/
def nodeName (s : NodeStore) (id : NodeId) : JsString :=
  match s.answer id with
  | some n => if n.name == [] then id.1 else n.name
  | none => id.1

/-- The node that `onSnapshot` tells the engine of. -/
def pushedNode (s : NodeStore) (id : NodeId) : Node := ⟨id, s.nodeName id, ((s.answer id).bind fun n => n.tags).getD []⟩

private theorem answer_of_mem_list {s : NodeStore} {l : Listed} (h : l ∈ s.list.2) :
    ∃ n, s.answer l.id = some n ∧ n.name = l.name ∧ n.tags.getD [] = l.tags := by
  unfold list at h
  obtain ⟨id, -, hl⟩ := List.mem_filterMap.1 h
  obtain ⟨n, hn, rfl⟩ := Option.map_eq_some_iff.1 hl
  exact ⟨n, (answer_eq s id).trans hn, rfl, rfl⟩

/-- On a push the engine is told of a listed node as the hub's model has it. -/
private theorem pushedNode_eq {s : NodeStore} {l : Listed} (h : l ∈ s.list.2) :
    s.pushedNode l.id = Hub.pushing l.node := by
  obtain ⟨n, hn, hname, htags⟩ := answer_of_mem_list h
  unfold pushedNode nodeName Hub.pushing Listed.node
  rw [hn, Option.bind_some, htags]
  dsimp only
  rw [hname]

end NodeStore

namespace Confd

/-- A node as the page shows it. -/
def Shown.node (n : Shown) : Node := n.toListed.node

/-- The engine is told the name and the tags that are shown, and every rule holds for the node as for the shown one. -/
def Agrees (told shown : Node) : Prop :=
  told.name = shown.name ∧ (∀ t, t ∈ told.tags ↔ t ∈ shown.tags) ∧ ∀ r : Rule, forNode r told = forNode r shown

/-- A rule sees of a node its id and which tags it has. -/
private theorem forNode_congr {a b : Node} (hid : a.id = b.id) (htags : ∀ t, t ∈ a.tags ↔ t ∈ b.tags) (r : Rule) :
    forNode r a = forNode r b := by
  have hcontains : ∀ t, a.tags.contains t = b.tags.contains t := by
    intro t
    rw [Bool.eq_iff_iff, List.contains_iff_mem, List.contains_iff_mem]
    exact htags t
  have hcovers : ∀ s : Target, s.covers a = s.covers b := by
    intro s
    cases s with
    | node id => simp only [Target.covers, hid]
    | tag t => simp only [Target.covers, hcontains]
  unfold forNode
  simp only [hcovers, hid, hcontains]

private theorem agrees_iff {told shown : Node} (hid : told.id = shown.id) :
    Agrees told shown ↔ told.name = shown.name ∧ ∀ t, t ∈ told.tags ↔ t ∈ shown.tags :=
  ⟨fun h => ⟨h.1, h.2.1⟩, fun h => ⟨h.1, h.2, forNode_congr hid h.2⟩⟩

/-- The files give the node no other tags and no other name. -/
def NothingElse (c : Conf) (l : NodeStore.Listed) : Prop :=
  ∀ f ∈ entryOf c.nodes l, (∀ tags ∈ f.tags, ∀ t, t ∈ tags ↔ t ∈ l.tags) ∧ ∀ name ∈ f.name, name = l.name

private theorem withFile_node (c : Conf) (l : NodeStore.Listed) :
    (withFile c l).node = ⟨l.id, (((entryOf c.nodes l).bind fun f => f.name).getD l.name),
      (((entryOf c.nodes l).bind fun f => f.tags).getD l.tags)⟩ := by
  unfold withFile
  cases entryOf c.nodes l <;> rfl

/-- The page shows the stored name and tags. -/
private theorem nothingElse_iff (c : Conf) (l : NodeStore.Listed) :
    NothingElse c l ↔ l.name = (withFile c l).node.name ∧ ∀ t, t ∈ l.tags ↔ t ∈ (withFile c l).node.tags := by
  rw [withFile_node]
  unfold NothingElse
  cases entryOf c.nodes l with
  | none => simp
  | some f =>
    obtain ⟨tags, name⟩ := f
    cases tags <;> cases name <;> simp [iff_comm, eq_comm, and_comm]

/-- **A node is judged and announced as it is shown**, on a push and on the minute's check, if and only if it has a name
and no file in `conf.d` gives it another name or other tags. -/
theorem judged_as_shown_iff (text : Json → Except JsString JsString) (dir : Dir) (s : NodeStore) (h : Hub)
    {l : NodeStore.Listed} (hl : l ∈ s.list.2) :
    let shown := (withFile (readConfd text dir) l).node
    (Agrees (s.pushedNode l.id) shown ∧ Agrees (h.checked l.node).toNode shown) ↔
      l.name ≠ [] ∧ NothingElse (readConfd text dir) l := by
  intro shown
  have hid : shown.id = l.id := by rw [show shown = (withFile (readConfd text dir) l).node from rfl, withFile_node]
  rw [s.pushedNode_eq hl, agrees_iff (by exact hid.symm), agrees_iff (by exact hid.symm), nothingElse_iff]
  constructor
  · rintro ⟨⟨hpushed, -⟩, hchecked⟩
    refine ⟨fun hempty => ?_, hchecked⟩
    -- a node without a name is announced by its id, and checked without one
    have hname : (Hub.pushing l.node).name = l.id.1 := if_pos (by exact beq_iff_eq.2 hempty)
    have hlength := l.id.2
    rw [← hname, hpushed, ← hchecked.1] at hlength
    rw [show (h.checked l.node).toNode.name = l.name from rfl, hempty] at hlength
    exact absurd hlength (by decide)
  · rintro ⟨hname, hshown⟩
    have hpushing : (Hub.pushing l.node).name = l.name := if_neg (by rw [beq_iff_eq]; exact hname)
    exact ⟨⟨hpushing.trans hshown.1, hshown.2⟩, hshown⟩

/-! ### Tags from a file -/

private def someText : Json → Except JsString JsString := fun _ => .ok []

private theorem isNodeId_nas : isNodeId (js "aaaaaaaaaaaa") = true := by decide

private def nasNode : NodeId := ⟨js "aaaaaaaaaaaa", isNodeId_nas⟩

private theorem isHex64_nas : isHex64 (List.replicate 64 0x61) = true := by decide

private def nasStore : NodeStore :=
  ((NodeStore.fromFile none).ensureLocal (js "nas") nasNode ⟨List.replicate 64 0x61, isHex64_nas⟩ 0 true).1

private def nas : NodeStore.Listed := ⟨nasNode, js "nas", true, 0, []⟩

private theorem nas_mem : nas ∈ nasStore.list.2 := by decide +kernel

/-- A file that sets tags for the node. -/
private def tagged : Dir := .ok [(js "10-tags.json", .file ⟨60, .ok (.ok (.obj [(js "nodes", .obj [(js "nas",
  .obj [(js "tags", .arr [.str (js "storage")])])])]))⟩)]

/-- A rule for the servers with this tag. -/
private def storageRule : Rule :=
  { rule .diskFull .diskUsed 90 5 .warning (some 88) with scope := some (.tag (js "storage")) }

/-- Without files the node is judged as it is shown. -/
theorem nas_judged_as_shown :
    let shown := (withFile (readConfd someText (.ok [])) nas).node
    Agrees (nasStore.pushedNode nas.id) shown ∧ Agrees ((Hub.start [] 0).checked nas.node).toNode shown :=
  (judged_as_shown_iff someText (.ok []) nasStore (Hub.start [] 0) nas_mem).2 ⟨by decide, fun f hf => by cases hf⟩

/-- A file gives the node a tag: the page shows it, and the rule for the tag holds for the shown node, but for the node
as the engine is told of it, on a push and on the check, it does not. -/
theorem file_tag_not_judged :
    let shown := (withFile (readConfd someText tagged) nas).node
    nas ∈ nasStore.list.2 ∧ shown.tags = [js "storage"] ∧ (forNode storageRule shown).isSome = true ∧
      forNode storageRule (nasStore.pushedNode nas.id) = none ∧ ¬ Agrees (nasStore.pushedNode nas.id) shown ∧
      ∀ h : Hub, forNode storageRule (h.checked nas.node).toNode = none ∧ ¬ Agrees (h.checked nas.node).toNode shown := by
  intro shown
  have htags : shown.tags = [js "storage"] := by decide +kernel
  have hshown : (forNode storageRule shown).isSome = true := by
    unfold forNode
    simp [storageRule, Target.covers, htags, rule]
  have hpushed : forNode storageRule (nasStore.pushedNode nas.id) = none := by
    rw [nasStore.pushedNode_eq nas_mem]
    rfl
  have hno : ∀ told, forNode storageRule told = none → ¬ Agrees told shown := by
    intro told htold hagrees
    rw [← hagrees.2.2 storageRule, htold] at hshown
    cases hshown
  exact ⟨nas_mem, htags, hshown, hpushed, hno _ hpushed, fun h => ⟨rfl, hno _ rfl⟩⟩

end Confd

end Servitals
