import Servitals.HubOffline
import Servitals.NodeFile

/-!
# Alerts of revoked nodes

A push is on its way from the check of its head, which finds its node in `nodes.json`, until its body is complete; then
its snapshot is judged, unless its record was revoked in place in between.  A node is revoked by the page, which has the
engine forget its alerts, or with `servitals-ctl`, which only writes the file.  The minute's check visits the listed nodes.

So an alert of a node that `servitals-ctl` revokes stays in the engine (`Fleet.orphan_stays`).  In a run without such a
revocation, and without a push of a revoked node that opens an alert, every alert is of a listed node
(`Fleet.alerts_listed`).
-/

namespace Servitals

/-! ### What the engine keeps of a node -/

namespace Engine

variable {e : Engine} {node : Node} {v : View} {t : ℤ} {i : Inst}

/-- Does a value of the push hold for a rule that holds for the node? -/
def rings (e : Engine) (node : Node) (v : View) : Bool :=
  e.rules.any fun rule => (forNode rule node).any fun r =>
    (r.metric = .offline && r.holds (some 0)) ||
      (valuesOf r.metric v (seenRunning (e.runningOf node.id) v)).any fun vals =>
        (watched r vals).any fun x => r.holds (some x.value)

/-- A value that does not hold opens no alert. -/
private theorem not_has_judged {r : Rule} {sub : JsString} {value : Option ℚ} (hholds : r.holds value = false)
    (hnone : ∀ i, e.Has i → i.node ≠ node.id) :
    ∀ i, (e.judged r node sub value t).Has i → i.node ≠ node.id := by
  intro i hi
  obtain ⟨ns, htouch, hjudged⟩ := e.judged_touches r node sub value t
  have hbefore : e.instances.get? ⟨r.id, node.id, sub⟩ = none := by
    by_contra hsome
    obtain ⟨j, hj⟩ := Option.ne_none_iff_exists'.1 hsome
    have hident := Instances.ident_of_get? hj
    refine hnone j ?_ (congrArg Ident.node hident)
    rw [Has, hident]
    exact hj
  by_cases hident : i.ident = ⟨r.id, node.id, sub⟩
  · -- nothing was there, and nothing is opened
    rw [hbefore] at hjudged
    rw [Has, hident] at hi
    rw [hi] at hjudged
    cases hjudged with
    | waits _ _ _ hv _ _ => simp [hholds] at hv
    | fires _ _ _ _ hv _ _ _ _ _ _ _ => simp [hholds] at hv
  · rw [Has, htouch.others _ hident] at hi
    exact hnone i hi

/-- A push in which no value holds opens no alert. -/
private theorem not_has_evaluate (hcalm : e.rings node v = false) (hnone : ∀ i, e.Has i → i.node ≠ node.id) :
    ∀ i, (e.evaluate node v t).Has i → i.node ≠ node.id := by
  have hrule : ∀ rule ∈ e.rules, ∀ r, forNode rule node = some r →
      (r.metric = .offline → r.holds (some 0) = false) ∧
        ∀ vals, valuesOf r.metric v (seenRunning (e.runningOf node.id) v) = some vals →
          ∀ x ∈ watched r vals, r.holds (some x.value) = false := by
    intro rule hrule r hr
    have hno := List.any_eq_false.1 hcalm rule hrule
    simp only [hr, Option.any_some, Bool.or_eq_true, Bool.and_eq_true, decide_eq_true_eq, not_or, not_and] at hno
    refine ⟨fun hoff => by simpa using hno.1 hoff, fun vals hvals x hx => ?_⟩
    have hvalues := hno.2
    rw [hvals, Option.any_some, Bool.not_eq_true, List.any_eq_false] at hvalues
    simpa using hvalues x hx
  have hsee : ∀ i, (e.see node.id v).Has i → i.node ≠ node.id := by
    intro i hi
    refine hnone i ?_
    unfold see at hi
    split at hi
    · exact hi
    · exact hi
  refine (e.evaluate_acts node v t).invariant (I := fun e₁ => ∀ i, e₁.Has i → i.node ≠ node.id) ?_ hsee
  intro e₁ a hnone₁ ha
  cases ha with
  | offline rule r hmem hr hoff => exact not_has_judged ((hrule rule hmem r hr).1 hoff) hnone₁
  | value rule r vals x hmem hr hvals hx => exact not_has_judged ((hrule rule hmem r hr).2 vals hvals x hx) hnone₁
  | gone rule r vals i _ _ _ hi _ hnode => exact absurd hnode (hnone₁ i hi)
  | ended rule i _ _ hi _ hnode => exact absurd hnode (hnone₁ i hi)

/-- A push leaves the alerts of other nodes. -/
private theorem has_of_evaluate (hi : (e.evaluate node v t).Has i) (hne : i.node ≠ node.id) : e.Has i := by
  have hothers : (e.evaluate node v t).instances.get? i.ident = (e.see node.id v).instances.get? i.ident := by
    refine (e.evaluate_acts node v t).others (evaluateAct_onLive _ _ _ _) fun e₁ a ha hident => ?_
    have hnode : i.node = a.ident.node := congrArg Ident.node hident
    cases ha with
    | offline => exact hne hnode
    | value => exact hne hnode
    | gone => exact hne hnode
    | ended rule j _ _ _ _ hj => exact hne (hnode.trans hj)
  rw [Has, hothers] at hi
  unfold see at hi
  split at hi
  · exact hi
  · exact hi

/-- The minute's check leaves the alerts of the nodes it does not visit. -/
private theorem get?_check {nodes : List CheckedNode} (hne : ∀ n ∈ nodes, n.id ≠ i.node) :
    (e.check nodes t).instances.get? i.ident = e.instances.get? i.ident := by
  refine (e.check_acts nodes t).others (checkAct_onLive _ _ _) fun e₁ a ha hident => ?_
  have hnode : i.node = a.ident.node := congrArg Ident.node hident
  cases ha with
  | offline n _ _ _ hn _ _ _ _ => exact hne n hn hnode.symm
  | ended n _ j hn _ _ _ _ hj _ => exact hne n hn (hnode.trans hj).symm
  | again n _ _ j hn _ _ _ _ hj _ _ => exact hne n hn (hnode.trans hj).symm

private theorem has_of_drop {j : Inst} (h : (e.drop i t).Has j) : e.Has j := by
  by_cases hid : j.ident = i.ident
  · rw [Has, hid, get?_drop_self] at h
    cases h
  · rwa [Has, (drop_touches e i t).others _ hid] at h

/-- A revoked node's alerts go, and no others come. -/
private theorem has_of_forget {id : NodeId} (hi : (e.forget id t).Has i) : e.Has i ∧ i.node ≠ id := by
  have hforgotten : (e.forgotten id t).Has i := hi
  constructor
  · refine (e.forgotten_acts id t).invariant (I := fun e₁ => e₁.Has i → e.Has i) ?_ (fun h => h) hforgotten
    intro e₁ a hkept ha h
    cases ha with
    | known r j => exact hkept (has_finish h).1
    | lost j => exact hkept (has_of_drop h)
  · refine forInstances_filter (p := fun i => i.node ≠ id) e.rules ?_ ?_ rfl hforgotten
    · intro e₁ j he₁ hj
      split
      · exact he₁
      · split
        · obtain ⟨ns, htouch, -⟩ := finish_touches e₁ j _ false t
          exact htouch.rules.trans he₁
        · exact (drop_touches e₁ j t).rules.trans he₁
    · intro e₁ j _ _ k hk
      split at hk
      · rename_i hother
        refine ⟨hk, fun hid => ?_⟩
        rw [show k.node = j.node from congrArg Ident.node hid]
        exact hother
      · split at hk
        · exact ⟨(has_finish hk).1, fun hid => absurd hid (has_finish hk).2⟩
        · refine ⟨has_of_drop hk, fun hid => ?_⟩
          rw [Has, hid, get?_drop_self] at hk
          cases hk

/-- An edit of the rules ends alerts only. -/
private theorem has_of_prune {old : List Rule} (hi : (e.prune old t).Has i) : e.Has i := by
  have hpruned : (e.pruned old t).Has i := hi
  refine (e.pruned_acts old t).invariant (I := fun e₁ => e₁.Has i → e.Has i) ?_ (fun h => h) hpruned
  intro e₁ a hkept ha h
  cases ha with
  | off r j => exact hkept (has_finish h).1
  | gone j info => exact hkept (has_finish h).1

end Engine

/-! ### The list of nodes -/

namespace NodeStore

/-- Is the node in the list? -/
def Lists (s : NodeStore) (id : NodeId) : Bool := s.list.2.any fun l => l.id = id

/-- The nodes as the engine is told of them once a minute. -/
def nodeList (s : NodeStore) : List Node := s.list.2.map fun l => ⟨l.id, l.name, l.tags⟩

/-- The node of a push; one that is not listed has no tags, and goes by its id. -/
def nodeOf (s : NodeStore) (id : NodeId) : Node := ⟨id, ((s.answer id).map NodeRec.name).getD [],
  ((s.answer id).bind NodeRec.tags).getD []⟩

variable {s : NodeStore} {v : ℕ} {nodes : OMap NodeId NodeRec} {id : NodeId}

/-- The list has the nodes that `get` answers. -/
private theorem lists_iff : s.Lists id = true ↔ ∃ n, s.answer id = some n := by
  simp only [Lists, NodeStore.list, List.any_eq_true, List.mem_filterMap, Option.map_eq_some_iff, decide_eq_true_eq,
    answer_eq]
  constructor
  · rintro ⟨l, ⟨id', -, n, hn, rfl⟩, rfl⟩
    exact ⟨n, hn⟩
  · rintro ⟨n, hn⟩
    refine ⟨_, ⟨id, ?_, n, hn, rfl⟩, rfl⟩
    obtain ⟨a, ha, -⟩ := Option.bind_eq_some_iff.1 (Option.filter_eq_some_iff.1 hn).1
    exact OMap.mem_keys_iff.2 ⟨a, ha⟩

private theorem lists_load : s.load.Lists id = s.Lists id := by
  rw [Lists, Lists, NodeStore.list, NodeStore.list, load_load]

/-- The nodes of the file that are not revoked. -/
private theorem Agrees.lists_iff (h : s.Agrees v nodes) :
    s.Lists id = true ↔ ∃ n, nodes.get? id = some n ∧ n.revoked = false := by
  simp [NodeStore.lists_iff, h.answer, Option.filter_eq_some_iff]

private theorem lists_of_mem_nodeList {n : Node} (hn : n ∈ s.nodeList) : s.Lists n.id = true := by
  obtain ⟨l, hl, rfl⟩ := List.mem_map.1 hn
  exact List.any_eq_true.2 ⟨l, hl, decide_eq_true rfl⟩

end NodeStore

/-! ### The hub with its nodes and the pushes on their way -/

open NodeStore (Maker)

/-- A push whose head was accepted: its node, and the address of the record it holds. -/
structure Flying where
  node : NodeId
  addr : ℕ

/-- `hub` keeps the engine and the latest snapshots; its nodes are those of the store. -/
structure Fleet where
  store : NodeStore
  hub : Hub
  flying : List Flying

/-- A change of `nodes.json` that revokes no node. -/
inductive NodeEdit
  | add (name : JsString) (tags : List JsString) (secret : JsString) (drawn : List NodeId)
  | rename (id : NodeId) (name : JsString)
  | setTags (id : NodeId) (tags : List JsString)
  | rotate (id : NodeId) (secret : Secret)

/-- The store after the change, written to the file. -/
def NodeEdit.make (t : ℤ) (s : NodeStore) : NodeEdit → NodeStore
  | add name tags secret drawn => (s.add name tags secret drawn t true).1
  | rename id name => (s.rename id name true).1
  | setTags id tags => (s.setTags id tags true).1
  | rotate id secret => (s.rotate id secret t true).1

/-- The head of a push that is accepted and the body that its agent signs, what the page or `servitals-ctl` makes of the
nodes, the minute's check, the calls of the engine that the page makes, and a restart. -/
inductive FleetOp
  | head (id : NodeId)
  | body (k : ℕ) (v : View) (written : Bool)
  | edit (who : Maker) (e : NodeEdit)
  | revoke (who : Maker) (id : NodeId)
  | minute
  | muteRule (id : RuleId) (til : ℚ)
  | muteNode (id : NodeId) (til : ℚ)
  | setRules (saved : List SavedRule)
  | restart (hostname : JsString) (drawn : NodeId) (secret : Secret) (saved : List SavedRule)

structure FleetStep where
  time : ℤ
  op : FleetOp

namespace Fleet

/-- A process of the hub over a file of nodes, or none, with no alerts. -/
def start (file : Option (ℕ × OMap NodeId NodeRec)) (hostname : JsString) (drawn : NodeId) (secret : Secret)
    (saved : List SavedRule) (t : ℤ) : Fleet where
  store := ((NodeStore.fromFile (file.map fun f => (f.1, some f.2))).ensureLocal hostname drawn secret t true).1
  hub := Hub.start saved t
  flying := []

/-- Does the record that a push holds still have a secret to check it with? -/
def Holds (f : Fleet) (q : Flying) : Bool := (f.store.heap[q.addr]?).any fun n => !n.revoked

/-- `POST /__ctl/node/<id>/revoke` -/
def revokeByPage (f : Fleet) (t : ℤ) (id : NodeId) : Fleet :=
  if (f.store.get id).2.isNone then { f with store := f.store.load }
  else match f.store.revoke id true with
    | (store, .ok ()) => { f with store := store, hub := f.hub.effect t (.revoke id) }
    | (store, .error _) => { f with store := store }

def step (f : Fleet) (x : FleetStep) : Fleet :=
  match x.op with
  | .head id => match f.store.get id with
    | (store, some addr) => { f with store := store, flying := f.flying ++ [⟨id, addr⟩] }
    | (store, none) => { f with store := store }
  | .body k v written => match f.flying[k]? with
    | none => f
    | some q =>
      let f := { f with flying := f.flying.eraseIdx k }
      if f.Holds q then
        { f with store := f.store.load, hub := f.hub.onSnapshot (f.store.nodeOf q.node) v written x.time }
      else f
  | .edit who e => { f with store := f.store.made (fun s => e.make x.time s) who }
  | .revoke .hub id => f.revokeByPage x.time id
  | .revoke .ctl id => { f with store := f.store.made (fun s => (s.revoke id true).1) .ctl }
  | .minute =>
    { f with store := f.store.load, hub := { f.hub with nodes := f.store.nodeList }.effect x.time .minute }
  | .muteRule id til => { f with hub := f.hub.effect x.time (.muteRule id til) }
  | .muteNode id til => { f with hub := f.hub.effect x.time (.muteNode id til) }
  | .setRules saved => { f with hub := f.hub.effect x.time (.setRules saved) }
  | .restart hostname drawn secret saved =>
    let store := ((NodeStore.fromFile f.store.file).ensureLocal hostname drawn secret x.time true).1
    { store := store, hub := { f.hub with nodes := store.nodeList }.effect x.time (.restart saved), flying := [] }

/-- Every alert that the engine holds or lists as firing is of a listed node. -/
structure Listed (f : Fleet) : Prop where
  held : ∀ i ∈ f.hub.engine.instances.list, f.store.Lists i.node = true
  firing : ∀ t, ∀ a ∈ f.hub.engine.firing t, f.store.Lists a.node = true

/-- No value of a push of a node that is not listed holds, and no node is revoked with `servitals-ctl` while the engine
holds an alert of it; the hub's own node cannot be revoked. -/
def Tidy (f : Fleet) (x : FleetStep) : Bool :=
  match x.op with
  | .body k v _ => (f.flying[k]?).all fun q =>
      !f.Holds q || f.store.Lists q.node || !f.hub.engine.rings (Hub.pushing (f.store.nodeOf q.node)) v
  | .revoke .ctl id =>
    (f.store.answer id).any NodeRec.isLocal || f.hub.engine.instances.list.all fun i => i.node ≠ id
  | _ => true

end Fleet

/-! ### What a step makes of the list -/

section

variable {s : NodeStore} {v : ℕ} {nodes : OMap NodeId NodeRec}

/-- A change that revokes no node leaves the listed ones listed. -/
private theorem NodeStore.Agrees.made_edit (h : s.Agrees v nodes) (who : Maker) (e : NodeEdit) (t : ℤ) :
    ∃ v' nodes', (s.made (fun s => e.make t s) who).Agrees v' nodes' ∧
      ∀ id n, nodes.get? id = some n → n.revoked = false → ∃ n', nodes'.get? id = some n' ∧ n'.revoked = false := by
  have hchange : ∀ id (fn : (n : NodeRec) → n.revoked = false → Except JsString NodeRec),
      (∀ n hn n', fn n hn = .ok n' → n'.revoked = false) →
      ∃ v' nodes', (s.made (fun s => (s.change id fn true).1) who).Agrees v' nodes' ∧
        ∀ id n, nodes.get? id = some n → n.revoked = false → ∃ n', nodes'.get? id = some n' ∧ n'.revoked = false := by
    intro id fn hfn
    rcases h.made_change who id fn with ⟨m, hm, m', nodes', -, hok, hagrees, hnodes⟩ | ⟨-, hsame⟩
    · refine ⟨v + 1, nodes', hagrees, fun id' n hn hrevoked => ?_⟩
      rw [hnodes]
      by_cases hid : id' = id
      · exact ⟨m', if_pos hid, hfn m hm m' hok⟩
      · exact ⟨n, by rw [if_neg hid, hn], hrevoked⟩
    · exact ⟨v, nodes, hsame, fun id n hn hrevoked => ⟨n, hn, hrevoked⟩⟩
  cases e with
  | add name tags secret drawn =>
    obtain ⟨v', nodes', hagrees, hkept⟩ := h.made_add who name tags secret drawn t
    exact ⟨v', nodes', hagrees, fun id n hn hrevoked => ⟨n, hkept id n hn, hrevoked⟩⟩
  | rename id name =>
    refine hchange id _ fun n hn n' hok => ?_
    cases hname : checkName name with
    | error e => simp [hname, Except.map] at hok
    | ok clean =>
      simp only [hname, Except.map, Except.ok.injEq] at hok
      exact hok ▸ hn
  | setTags id tags =>
    refine hchange id _ fun n hn n' hok => ?_
    cases hname : checkNode n.name tags with
    | error e => simp [hname, Except.map] at hok
    | ok clean =>
      simp only [hname, Except.map, Except.ok.injEq] at hok
      exact hok ▸ hn
  | rotate id secret =>
    refine hchange id _ fun n hn n' hok => ?_
    obtain rfl := Except.ok.inj hok
    exact hn

/-- A revocation takes its node off the list, unless it is the hub's own, and no other. -/
private theorem NodeStore.Agrees.made_revoke (h : s.Agrees v nodes) (who : Maker) (id : NodeId) :
    ∃ v' nodes', (s.made (fun s => (s.revoke id true).1) who).Agrees v' nodes' ∧
      (∀ id', id' ≠ id → nodes'.get? id' = nodes.get? id') ∧
      (∀ n, nodes.get? id = some n → n.isLocal = true → nodes'.get? id = some n) ∧
      ∀ n, nodes.get? id = some n → n.isLocal = false → ∃ n', nodes'.get? id = some n' ∧ n'.revoked = true := by
  rcases h.made_change who id fun n _ =>
      if n.isLocal then .error (js "the local node cannot be revoked") else .ok n.revoke with
    ⟨m, hm, m', nodes', hget, hok, hagrees, hnodes⟩ | ⟨hno, hsame⟩
  · refine ⟨v + 1, nodes', hagrees, fun id' hid => by rw [hnodes, if_neg hid], fun n hn hlocal => ?_, fun n hn hlocal => ?_⟩
    · obtain rfl := Option.some.inj (hget.symm.trans hn)
      simp [hlocal] at hok
    · obtain rfl := Option.some.inj (hget.symm.trans hn)
      refine ⟨m', by rw [hnodes, if_pos rfl], ?_⟩
      simp only [hlocal, Bool.false_eq_true, if_false, Except.ok.injEq] at hok
      exact hok ▸ rfl
  · refine ⟨v, nodes, hsame, fun id' _ => rfl, fun n hn _ => hn, fun n hn hlocal => ⟨n, hn, ?_⟩⟩
    by_contra hrevoked
    exact hno n hn (Bool.eq_false_iff.2 hrevoked) n.revoke (by simp [hlocal])

end

namespace Fleet

variable {f : Fleet}

/-- The file and the memory of the store agree. -/
def Sound (f : Fleet) : Prop := ∃ v nodes, f.store.Agrees v nodes

/-- A revocation by the page that is refused, or the one that is made. -/
private theorem revokeByPage_cases (f : Fleet) (t : ℤ) (id : NodeId) :
    f.revokeByPage t id = { f with store := f.store.load } ∨
      f.revokeByPage t id = { f with store := (f.store.revoke id true).1, hub := f.hub.effect t (.revoke id) } := by
  unfold revokeByPage
  split
  · exact Or.inl rfl
  · split
    · rename_i store hr
      refine Or.inr ?_
      rw [hr]
    · rename_i store e hr
      refine Or.inl ?_
      have hthrown := NodeStore.Agrees.change_thrown (congrArg Prod.snd hr)
      rw [show store = f.store.load from (congrArg Prod.fst hr).symm.trans hthrown]

/-- The nodes of the list stay on it but for those that are revoked. -/
private theorem Sound.step (h : f.Sound) (x : FleetStep) : (f.step x).Sound ∧ ∀ id, f.store.Lists id = true →
    (∀ who, x.op = .revoke who id → (f.store.answer id).any NodeRec.isLocal = true) →
    (f.step x).store.Lists id = true := by
  obtain ⟨v, nodes, hagrees⟩ := h
  obtain ⟨t, op⟩ := x
  have hload : ∀ g : Fleet, g.store = f.store.load → g.Sound ∧ ∀ id, f.store.Lists id = true →
      (∀ who, op = .revoke who id → (f.store.answer id).any NodeRec.isLocal = true) → g.store.Lists id = true := by
    intro g hg
    refine ⟨⟨v, nodes, hg ▸ hagrees.load.1⟩, fun id hid _ => ?_⟩
    rw [hg, NodeStore.lists_load, hid]
  have hsame : ∀ g : Fleet, g.store = f.store → g.Sound ∧ ∀ id, f.store.Lists id = true →
      (∀ who, op = .revoke who id → (f.store.answer id).any NodeRec.isLocal = true) → g.store.Lists id = true := by
    intro g hg
    exact ⟨⟨v, nodes, hg ▸ hagrees⟩, fun id hid _ => hg ▸ hid⟩
  have hrevoke : ∀ (g : Fleet) (who : Maker) (id : NodeId), op = .revoke who id →
      g.store = f.store.made (fun s => (s.revoke id true).1) who → g.Sound ∧ ∀ id, f.store.Lists id = true →
      (∀ who, op = .revoke who id → (f.store.answer id).any NodeRec.isLocal = true) → g.store.Lists id = true := by
    intro g who id hop hg
    obtain ⟨v', nodes', hagrees', hothers, hlocal, -⟩ := hagrees.made_revoke who id
    rw [← hg] at hagrees'
    refine ⟨⟨v', nodes', hagrees'⟩, fun id' hid hkept => ?_⟩
    obtain ⟨n, hn, hrevoked⟩ := hagrees.lists_iff.1 hid
    refine hagrees'.lists_iff.2 ⟨n, ?_, hrevoked⟩
    by_cases heq : id' = id
    · subst heq
      have hown := hkept who hop
      rw [hagrees.answer, hn, Option.filter_some] at hown
      exact hlocal n hn (by simpa [hrevoked] using hown)
    · rw [hothers id' heq, hn]
  cases op with
  | head id =>
    refine hload _ ?_
    unfold Fleet.step
    dsimp only
    split
    · rename_i store addr hr
      exact (congrArg Prod.fst hr).symm
    · rename_i store hr
      exact (congrArg Prod.fst hr).symm
  | body k v written =>
    unfold Fleet.step
    dsimp only
    split
    · exact hsame _ rfl
    · split
      · exact hload _ rfl
      · exact hsame _ rfl
  | edit who e =>
    obtain ⟨v', nodes', hagrees', hkept⟩ := hagrees.made_edit who e t
    refine ⟨⟨v', nodes', hagrees'⟩, fun id hid _ => ?_⟩
    obtain ⟨n, hn, hrevoked⟩ := hagrees.lists_iff.1 hid
    exact hagrees'.lists_iff.2 (hkept id n hn hrevoked)
  | revoke who id =>
    cases who with
    | hub =>
      rcases f.revokeByPage_cases t id with hr | hr
      · exact hload _ (congrArg store hr)
      · exact hrevoke _ .hub id rfl (congrArg store hr)
    | ctl => exact hrevoke _ .ctl id rfl rfl
  | minute => exact hload _ rfl
  | muteRule id til => exact hsame _ rfl
  | muteNode id til => exact hsame _ rfl
  | setRules saved => exact hsame _ rfl
  | restart hostname drawn secret saved =>
    obtain ⟨v', nodes', hagrees', hkept⟩ := hagrees.fromFile.ensureLocal hostname drawn secret t
    refine ⟨⟨v', nodes', hagrees'⟩, fun id hid _ => ?_⟩
    obtain ⟨n, hn, hrevoked⟩ := hagrees.lists_iff.1 hid
    refine hagrees'.lists_iff.2 ?_
    rcases hkept id with hkept | hfresh
    · exact ⟨n, hkept.trans hn, hrevoked⟩
    · exact hfresh

/-- Every alert of the engine is of a listed node. -/
def Held (f : Fleet) : Prop := ∀ i, f.hub.engine.Has i → f.store.Lists i.node = true

private theorem listed_iff : f.Listed ↔ f.Held := by
  constructor
  · intro h i hi
    exact h.held i (Instances.mem_list_iff.2 hi)
  · intro h
    have hheld : ∀ i ∈ f.hub.engine.instances.list, f.store.Lists i.node = true :=
      fun i hi => h i (Instances.mem_list_iff.1 hi)
    refine ⟨hheld, fun t a ha => ?_⟩
    obtain ⟨i, hi, rfl⟩ := List.mem_map.1 ha
    exact hheld i (List.mem_filter.1 hi).1

private theorem held_start (file : Option (ℕ × OMap NodeId NodeRec)) (hostname : JsString) (drawn : NodeId)
    (secret : Secret) (saved : List SavedRule) (t : ℤ) : (start file hostname drawn secret saved t).Held := by
  intro i hi
  cases hi

private theorem Held.load (h : f.Held) {i : Inst} (hi : f.hub.engine.Has i) : f.store.load.Lists i.node = true := by
  rw [NodeStore.lists_load]
  exact h i hi

/-- A push opens an alert of its own node only, which is listed, or no value holds. -/
private theorem Held.body (h : f.Held) {t : ℤ} {k : ℕ} {v : View} {written : Bool}
    (hx : f.Tidy ⟨t, .body k v written⟩ = true) : (f.step ⟨t, .body k v written⟩).Held := by
  intro i hi
  unfold Fleet.step at hi ⊢
  dsimp only at hi ⊢
  cases hq : f.flying[k]? with
  | none =>
    rw [hq] at hi
    exact h i hi
  | some q =>
    rw [hq] at hi
    dsimp only at hi ⊢
    by_cases hholds : f.Holds q = true
    · have hkept : Holds { f with flying := f.flying.eraseIdx k } q = true := hholds
      rw [if_pos hkept] at hi ⊢
      by_cases hnode : i.node = q.node
      · by_cases hlisted : f.store.Lists q.node = true
        · rw [hnode, NodeStore.lists_load]
          exact hlisted
        · -- the engine has no alert of the node, and the push opens none
          simp only [Tidy, hq, Option.all_some, hholds, hlisted, Bool.not_true, Bool.or_self, Bool.false_or,
            Bool.not_eq_true'] at hx
          refine absurd hnode (Engine.not_has_evaluate hx (fun j hj hjnode => hlisted ?_) i hi)
          have hid : j.node = q.node := hjnode
          rw [← hid]
          exact h j hj
      · exact h.load (Engine.has_of_evaluate hi hnode)
    · have hlost : ¬ Holds { f with flying := f.flying.eraseIdx k } q = true := hholds
      rw [if_neg hlost] at hi ⊢
      exact h i hi

/-- A revocation by the page takes the node's alerts with it; one with `servitals-ctl` finds none. -/
private theorem Held.revoke (h : f.Held) (hs : f.Sound) {t : ℤ} {who : Maker} {id : NodeId}
    (hx : f.Tidy ⟨t, .revoke who id⟩ = true) : (f.step ⟨t, .revoke who id⟩).Held := by
  obtain ⟨-, hlists⟩ := hs.step ⟨t, .revoke who id⟩
  intro i hi
  cases who with
  | hub =>
    have hpage : f.step ⟨t, .revoke .hub id⟩ = f.revokeByPage t id := rfl
    rcases f.revokeByPage_cases t id with hr | hr
    · rw [hpage, hr] at hi ⊢
      exact h.load hi
    · rw [hpage, hr] at hi
      obtain ⟨hi, hne⟩ := Engine.has_of_forget hi
      refine hlists i.node (h i hi) fun who hop => ?_
      cases hop
      exact absurd rfl hne
  | ctl =>
    have hi : f.hub.engine.Has i := hi
    refine hlists i.node (h i hi) fun who hop => ?_
    cases hop
    rcases Bool.or_eq_true_iff.1 hx with hlocal | hnone
    · exact hlocal
    · exact absurd rfl (of_decide_eq_true (List.all_eq_true.1 hnone i (Instances.mem_list_iff.2 hi)))

/-- The check opens alerts of the nodes it visits, and those are listed. -/
private theorem Held.minute (h : f.Held) {t : ℤ} : (f.step ⟨t, .minute⟩).Held := by
  intro i hi
  by_cases hvisited : ∃ n ∈ f.store.nodeList, n.id = i.node
  · obtain ⟨n, hn, hid⟩ := hvisited
    show f.store.load.Lists i.node = true
    rw [NodeStore.lists_load, ← hid]
    exact NodeStore.lists_of_mem_nodeList hn
  · refine h.load ?_
    rw [Engine.Has, ← hi]
    refine (Engine.get?_check fun n hn hid => hvisited ?_).symm
    obtain ⟨m, hm, rfl⟩ := List.mem_map.1 hn
    exact ⟨m, hm, hid⟩

/-- A new process has the alerts that were saved. -/
private theorem Held.restart (h : f.Held) (hs : f.Sound) {t : ℤ} {hostname : JsString} {drawn : NodeId} {secret : Secret}
    {saved : List SavedRule} : (f.step ⟨t, .restart hostname drawn secret saved⟩).Held := by
  obtain ⟨-, hlists⟩ := hs.step ⟨t, .restart hostname drawn secret saved⟩
  intro i hi
  have hsaved := Engine.has_of_prune
    (e := { f.hub.engine with rules := buildRules saved, instances := f.hub.engine.instances.saved }) hi
  rw [Engine.Has, Instances.get?_saved, Option.map_eq_some_iff] at hsaved
  obtain ⟨j, hj, hji⟩ := hsaved
  have hident := Instances.ident_of_get? hj
  rw [← show j.node = i.node from congrArg Ident.node hident]
  refine hlists j.node (h j ?_) fun who hop => by cases hop
  rw [Engine.Has, hident]
  exact hj

/-- A step that is tidy opens no alert of a node off the list, and takes no node with an alert off it. -/
private theorem Held.step (h : f.Held) (hs : f.Sound) {x : FleetStep} (hx : f.Tidy x = true) : (f.step x).Held := by
  obtain ⟨-, hlists⟩ := hs.step x
  obtain ⟨t, op⟩ := x
  cases op with
  | head id =>
    intro i hi
    refine hlists i.node (h i ?_) fun who hop => by cases hop
    unfold Fleet.step at hi
    dsimp only at hi
    split at hi
    · exact hi
    · exact hi
  | body k v written => exact h.body hx
  | edit who e => exact fun i hi => hlists i.node (h i hi) fun who hop => by cases hop
  | revoke who id => exact h.revoke hs hx
  | minute => exact h.minute
  | muteRule id til => exact h
  | muteNode id til => exact h
  | setRules saved =>
    exact fun i hi => h i (Engine.has_of_prune (e := { f.hub.engine with rules := buildRules saved }) hi)
  | restart hostname drawn secret saved => exact h.restart hs

/-- An alert of a node off the list stays, however often the minute is checked. -/
theorem orphan_stays {i : Inst} (hi : f.hub.engine.Has i) (hnode : f.store.Lists i.node = false) (checks : List ℤ) :
    ¬ (Runs.run step f (checks.map fun t => ⟨t, .minute⟩)).Listed := by
  induction checks generalizing f i with
  | nil =>
    intro h
    have hlisted := listed_iff.1 h i hi
    rw [show Runs.run step f _ = f from rfl, hnode] at hlisted
    cases hlisted
  | cons t checks ih =>
    refine ih (i := i) ?_ ?_
    · show (f.hub.engine.check _ t).Has i
      rw [Engine.Has, Engine.get?_check, hi]
      intro n hn hid
      obtain ⟨m, hm, rfl⟩ := List.mem_map.1 hn
      have hlisted : f.store.Lists m.id = true := NodeStore.lists_of_mem_nodeList hm
      rw [show m.id = i.node from hid, hnode] at hlisted
      cases hlisted
    · show f.store.load.Lists i.node = false
      rw [NodeStore.lists_load]
      exact hnode

/-- A revocation with `servitals-ctl` of a node with an alert. -/
private theorem Held.orphan (h : f.Held) (hs : f.Sound) {t : ℤ} {id : NodeId}
    (hx : f.Tidy ⟨t, .revoke .ctl id⟩ = false) :
    ∃ i, (f.step ⟨t, .revoke .ctl id⟩).hub.engine.Has i ∧ (f.step ⟨t, .revoke .ctl id⟩).store.Lists i.node = false := by
  obtain ⟨hlocal, hsome⟩ := Bool.or_eq_false_iff.1 hx
  obtain ⟨i, hi, hnode⟩ := List.all_eq_false.1 hsome
  have hnode : i.node = id := by simpa using hnode
  have hi := Instances.mem_list_iff.1 hi
  refine ⟨i, hi, ?_⟩
  obtain ⟨v, nodes, hagrees⟩ := hs
  obtain ⟨n, hn, hrevoked⟩ := hagrees.lists_iff.1 (h i hi)
  rw [hnode] at hn ⊢
  rw [hagrees.answer, hn, Option.filter_some] at hlocal
  obtain ⟨v', nodes', hagrees', -, -, hgone⟩ := hagrees.made_revoke .ctl id
  obtain ⟨n', hn', hrevoked'⟩ := hgone n hn (by simpa [hrevoked] using hlocal)
  rw [Bool.eq_false_iff]
  intro hlisted
  obtain ⟨m, hm, hkept⟩ := hagrees'.lists_iff.1 hlisted
  obtain rfl := Option.some.inj (hn'.symm.trans hm)
  rw [hrevoked'] at hkept
  cases hkept

/-- In every run whose steps are tidy every alert is of a listed node.  After a revocation with `servitals-ctl` that is not,
no number of checks makes it so again. -/
theorem alerts_listed (file : Option (ℕ × OMap NodeId NodeRec)) (hostname : JsString) (drawn : NodeId) (secret : Secret)
    (saved : List SavedRule) (t₀ : ℤ) (steps : List FleetStep)
    (htidy : Runs.Meets step (fun f x => f.Tidy x = true) (start file hostname drawn secret saved t₀) steps) :
    let f := Runs.run step (start file hostname drawn secret saved t₀) steps
    f.Listed ∧ ∀ t id, f.Tidy ⟨t, .revoke .ctl id⟩ = false → ∀ checks : List ℤ,
      ¬ (Runs.run step (f.step ⟨t, .revoke .ctl id⟩) (checks.map fun t => ⟨t, .minute⟩)).Listed := by
  intro f
  have hstart : (start file hostname drawn secret saved t₀).Sound :=
    NodeStore.agrees_start file hostname drawn secret t₀
  obtain ⟨hheld, hsound⟩ : f.Held ∧ f.Sound := by
    refine htidy.invariant (I := fun f => f.Held ∧ f.Sound) (fun f x h hx => ?_)
      ⟨held_start file hostname drawn secret saved t₀, hstart⟩
    exact ⟨h.1.step h.2 hx, (h.2.step x).1⟩
  refine ⟨listed_iff.2 hheld, fun t id hx checks => ?_⟩
  obtain ⟨i, hi, hnode⟩ := hheld.orphan hsound hx
  exact orphan_stays hi hnode checks

private theorem isNodeId_own : isNodeId (js "hubhubhubhub") = true := by decide

private theorem isHex64_own : isHex64 (List.replicate 64 0x61) = true := by decide

/-- The hub's own node, and the secret of every node here. -/
def ownNode : NodeId := ⟨js "hubhubhubhub", isNodeId_own⟩

def ownSecret : Secret := ⟨List.replicate 64 0x61, isHex64_own⟩

/-- A node is added, and its first push is on its way. -/
def joining (after : List FleetStep) : List FleetStep :=
  [⟨1000, .edit .hub (.add (js "nas") [] ownSecret.1 [Hub.silentNode.id])⟩, ⟨60000, .head Hub.silentNode.id⟩] ++ after

/-- The node is revoked while its push is on its way; the push is judged, and no value of it holds. -/
theorem listed_after_calm_push :
    (Runs.run step (start none (js "hub") ownNode ownSecret [] 0) (joining [⟨60100, .revoke .ctl Hub.silentNode.id⟩,
      ⟨60200, .body 0 (.bare 60) true⟩, ⟨120000, .minute⟩])).Listed :=
  (alerts_listed none (js "hub") ownNode ownSecret [] 0 _ (by decide +kernel)).1

/-- A node goes offline and is revoked with `servitals-ctl`; the next check leaves its alert. -/
theorem offline_alert_left :
    ¬ ∀ (file : Option (ℕ × OMap NodeId NodeRec)) (hostname : JsString) (drawn : NodeId) (secret : Secret)
      (saved : List SavedRule) (t₀ : ℤ) (steps : List FleetStep) (t : ℤ),
      (Runs.run step (start file hostname drawn secret saved t₀) (steps ++ [⟨t, .minute⟩])).Listed := by
  intro h
  have hheld := (h none (js "hub") ownNode ownSecret [] 0 (joining [⟨60200, .body 0 (.bare 60) true⟩,
    ⟨720000, .minute⟩, ⟨730000, .revoke .ctl Hub.silentNode.id⟩]) 780000).held
  revert hheld
  decide +kernel

end Fleet

end Servitals
