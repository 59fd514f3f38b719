import Servitals.NodeFile
import Servitals.AgentSecrets
import Servitals.Lib.Overlap
import Servitals.Lib.Runs

/-!
# Rotations and revocations

A rotation gives a node a new secret and keeps the old one for 24 hours; one inside these 24 hours keeps the one that is
kept already.  The secrets of a node's record are keys with an overlap (`Holds`), so for every order of rotations and
revocations, made by the hub or by another process over its file, the secrets that sign a request are the newest one and
the one whose window is open (`rotation_law`).
-/

namespace Servitals

open Overlap

/-- An operation on a node's secret. -/
inductive KeyOp
  | rotate (secret : Secret)
  | revoke

structure KeyStep where
  time : ℤ
  maker : NodeStore.Maker
  op : KeyOp

/-- A window of a secret is over after `OVERLAP_MS`. -/
def windowEnd (u : ℤ) : ℤ := u + NodeRec.OVERLAP_MS

private theorem monotone_windowEnd : Monotone windowEnd := fun _ _ h => Int.add_le_add_right h _

/-- The rotations of a list of steps. -/
def rotations (steps : List KeyStep) : List (ℤ × JsString) :=
  steps.filterMap fun x => match x.op with
    | .rotate secret => some (x.time, secret.1)
    | .revoke => none

private theorem rotations_append (pre post : List KeyStep) :
    rotations (pre ++ post) = rotations pre ++ rotations post :=
  List.filterMap_append

private theorem rotations_cons {x : KeyStep} {secret : Secret} (h : x.op = .rotate secret) (steps : List KeyStep) :
    rotations (x :: steps) = (x.time, secret.1) :: rotations steps :=
  List.filterMap_cons_some (by rw [h])

private theorem time_of_mem_rotations {steps : List KeyStep} {r : ℤ × JsString} (h : r ∈ rotations steps) :
    ∃ x ∈ steps, x.time = r.1 := by
  obtain ⟨x, hx, hr⟩ := List.mem_filterMap.1 h
  refine ⟨x, hx, ?_⟩
  split at hr
  · cases hr
    rfl
  · cases hr

namespace NodeRec

/-- The record holds the keys. -/
structure Holds (n : NodeRec) (k : Keys JsString ℤ) : Prop where
  secret : n.secret = k.newest
  oldSecret : n.oldSecret = k.window.map Prod.fst
  oldUntil : n.oldUntil = k.window.map fun w => windowEnd w.2

theorem Holds.overlaps {n : NodeRec} {k : Keys JsString ℤ} (h : n.Holds k) (t : ℤ) :
    n.overlaps t = k.overlaps windowEnd t := by
  rw [NodeRec.overlaps, Keys.overlaps, h.oldSecret, h.oldUntil]
  cases k.window with
  | none => rfl
  | some w => rfl

theorem Holds.rotate {n : NodeRec} {k : Keys JsString ℤ} (h : n.Holds k) (hn : n.revoked = false) (secret : Secret)
    (t : ℤ) : (n.rotate hn secret t).Holds (k.replace windowEnd t secret.1) := by
  refine ⟨rfl, ?_, ?_⟩
  · show (if n.overlaps t then n.oldSecret else some n.secret) = _
    rw [Keys.replace, h.overlaps]
    split
    · exact h.oldSecret
    · exact congrArg some h.secret
  · show (if n.overlaps t then n.oldUntil else some (windowEnd t)) = _
    rw [Keys.replace, h.overlaps]
    split
    · exact h.oldUntil
    · rfl

/-- The secrets a request may be signed with are the keys that work. -/
private theorem Holds.mem_candidates_iff {n : NodeRec} {k : Keys JsString ℤ} (h : n.Holds k) (hn : n.revoked = false)
    (t : ℤ)
    (secret : JsString) : secret ∈ AgentApi.candidates n t ↔ k.Works windowEnd t secret := by
  obtain ⟨-, hold⟩ := isHex64_of_not_revoked hn
  rw [AgentApi.candidates, Keys.Works, h.secret, h.oldSecret, h.oldUntil, List.mem_cons]
  rw [h.oldSecret] at hold
  refine or_congr_right ?_
  cases hw : k.window with
  | none => simp
  | some w =>
    obtain ⟨old, u⟩ := w
    rw [hw] at hold
    have hne : old ≠ [] := by
      rintro rfl
      exact absurd (hold [] rfl) (by decide)
    rw [Option.map_some, Option.map_some, Option.any_some]
    by_cases ht : t < windowEnd u
    · have hkept : (old != [] && decide (t < windowEnd u)) = true := by simp [hne, ht]
      dsimp only
      rw [if_pos hkept, List.mem_singleton]
      constructor
      · rintro rfl
        exact ⟨u, rfl, ht⟩
      · rintro ⟨u', h', -⟩
        cases h'
        rfl
    · have hgone : ¬ (old != [] && decide (t < windowEnd u)) = true := by simp [ht]
      dsimp only
      rw [if_neg hgone]
      refine iff_of_false List.not_mem_nil ?_
      rintro ⟨u', h', hlt⟩
      cases h'
      exact ht hlt

private theorem ne_nil_of_mem_candidates {n : NodeRec} (hn : n.revoked = false) {t : ℤ} {secret : JsString}
    (h : secret ∈ AgentApi.candidates n t) : secret ≠ [] := by
  obtain ⟨hsecret, hold⟩ := isHex64_of_not_revoked hn
  rintro rfl
  rw [AgentApi.candidates, List.mem_cons] at h
  rcases h with h | h
  · rw [← h] at hsecret
    exact absurd hsecret (by decide)
  · split at h
    · rename_i old hsome
      split at h
      · obtain rfl := List.mem_singleton.1 h
        exact absurd (hold [] hsome) (by decide)
      · cases h
    · cases h

end NodeRec

namespace NodeStore

/-- A step of the store: the operation is made and written. -/
def keyStep (id : NodeId) (s : NodeStore) (x : KeyStep) : NodeStore :=
  s.made (fun s => s.call x.time (match x.op with
    | .rotate secret => .rotate id secret true
    | .revoke => .revoke id true)) x.maker

/-- The secrets that a request of the node at `t` may be signed with. -/
def secretsAt (s : NodeStore) (id : NodeId) (t : ℤ) : List JsString :=
  ((s.answer id).map fun n => AgentApi.candidates n t).getD []

/-- A request whose head is accepted is signed with one of them. -/
theorem secretOf_eq_find (c : Crypto) (maxBody : ℕ) {a a' : AgentApi} {h : Head} {t : ℤ} {q : Pending}
    (hok : a.checkHead maxBody h t = (a', .ok q)) (body : List UInt8) :
    a'.secretOf c q body = (a.nodes.secretsAt q.node t).find? fun s =>
      c.verifyRequest s q.endpoint.method q.endpoint.pathname q.tsRaw body q.sig := by
  obtain ⟨-, -, hq⟩ := a.checkHead_spec maxBody h t
  rw [hok] at hq
  obtain ⟨hadmitted, hnodes, haddr⟩ := hq q rfl
  have hnodes : a'.nodes = a.nodes.load := hnodes
  have hanswer : a.nodes.answer q.node = a'.nodes.heap[q.addr]? := by
    rw [answer, haddr, hnodes]
    rfl
  rw [AgentApi.secretOf, secretsAt, ← hanswer, hadmitted.hubMs]
  cases hn : a.nodes.answer q.node with
  | none => rfl
  | some n =>
    have hrevoked : n.revoked = false := by
      rw [answer_eq, Option.filter_eq_some_iff] at hn
      simpa using hn.2
    rw [Option.bind_some, Option.map_some, Option.getD_some]
    cases hfind : (AgentApi.candidates n t).find? fun s =>
        c.verifyRequest s q.endpoint.method q.endpoint.pathname q.tsRaw body q.sig with
    | none => rfl
    | some secret =>
      have hne := NodeRec.ne_nil_of_mem_candidates hrevoked (List.mem_of_find?_eq_some hfind)
      rw [Option.filter_some, if_pos (bne_iff_ne.2 hne)]

/-- The store over the node's keys: its file and memory agree, and the node's record is revoked or holds the keys. -/
structure Keyed (id : NodeId) (isLocal : Bool) (s : NodeStore) (k : Option (Keys JsString ℤ)) : Prop where
  agrees : ∃ v nodes n, s.Agrees v nodes ∧ nodes.get? id = some n ∧ n.isLocal = isLocal ∧
    k.elim (n.revoked = true) fun k => n.revoked = false ∧ n.Holds k

/-- The keys after a step. -/
def keysAfter (isLocal : Bool) (k : Option (Keys JsString ℤ)) (x : KeyStep) : Option (Keys JsString ℤ) :=
  match x.op with
  | .rotate secret => k.map fun k => k.replace windowEnd x.time secret.1
  | .revoke => if isLocal then k else none

theorem Keyed.step {id : NodeId} {isLocal : Bool} {s : NodeStore} {k : Option (Keys JsString ℤ)}
    (h : Keyed id isLocal s k) (x : KeyStep) : Keyed id isLocal (keyStep id s x) (keysAfter isLocal k x) := by
  obtain ⟨v, nodes, n, hagrees, hn, hlocal, hk⟩ := h
  obtain ⟨time, maker, op⟩ := x
  cases op with
  | rotate secret =>
    rcases hagrees.made_change maker id fun n h => .ok (n.rotate h secret time) with
      ⟨m, hm, m', nodes', hget, hok, hagrees', hnodes'⟩ | ⟨hno, hagrees'⟩
    · obtain rfl := Option.some.inj (hn.symm.trans hget)
      cases hok
      refine ⟨v + 1, nodes', _, hagrees', (hnodes' id).trans (if_pos rfl), hlocal, ?_⟩
      cases k with
      | none => exact absurd (hm.symm.trans hk) Bool.noConfusion
      | some k => exact ⟨hm, hk.2.rotate hm secret time⟩
    · refine ⟨v, nodes, n, hagrees', hn, hlocal, ?_⟩
      cases k with
      | none => exact hk
      | some k => exact absurd rfl (hno n hn hk.1 _)
  | revoke =>
    rcases hagrees.made_change maker id fun n _ =>
        if n.isLocal then .error (js "the local node cannot be revoked") else .ok n.revoke with
      ⟨m, hm, m', nodes', hget, hok, hagrees', hnodes'⟩ | ⟨hno, hagrees'⟩
    · obtain rfl := Option.some.inj (hn.symm.trans hget)
      split at hok
      · cases hok
      · rename_i hremote
        cases hok
        rw [hlocal] at hremote
        refine ⟨v + 1, nodes', _, hagrees', (hnodes' id).trans (if_pos rfl), hlocal, ?_⟩
        rw [keysAfter, if_neg hremote]
        rfl
    · refine ⟨v, nodes, n, hagrees', hn, hlocal, ?_⟩
      cases k with
      | none =>
        rw [keysAfter, ite_self]
        exact hk
      | some k =>
        by_cases hremote : isLocal = true
        · rw [keysAfter, if_pos hremote]
          exact hk
        · rw [← hlocal] at hremote
          exact absurd (if_neg hremote) (hno n hn hk.1 _)

theorem Keyed.run {id : NodeId} {isLocal : Bool} {s : NodeStore} {k : Option (Keys JsString ℤ)}
    (h : Keyed id isLocal s k) (steps : List KeyStep) :
    Keyed id isLocal (Runs.run (keyStep id) s steps) (steps.foldl (keysAfter isLocal) k) := by
  induction steps generalizing s k with
  | nil => exact h
  | cons x steps ih => exact ih (h.step x)

/-- The node's revocation is among the steps; that of the local node is refused. -/
def Revoked (isLocal : Bool) (steps : List KeyStep) : Prop := isLocal = false ∧ ∃ x ∈ steps, x.op = .revoke

private theorem keys_none (isLocal : Bool) (steps : List KeyStep) : steps.foldl (keysAfter isLocal) none = none := by
  induction steps with
  | nil => rfl
  | cons x steps ih =>
    have hnone : keysAfter isLocal none x = none := by
      unfold keysAfter
      split
      · rfl
      · exact ite_self none
    rw [List.foldl_cons, hnone, ih]

private theorem keys_of_revoked {isLocal : Bool} {steps : List KeyStep} (h : Revoked isLocal steps)
    (k : Option (Keys JsString ℤ)) : steps.foldl (keysAfter isLocal) k = none := by
  obtain ⟨rfl, x, hx, hop⟩ := h
  obtain ⟨pre, post, rfl⟩ := List.append_of_mem hx
  have hnone : keysAfter false (pre.foldl (keysAfter false) k) x = none := by
    rw [keysAfter, hop]
    rfl
  rw [List.foldl_append, List.foldl_cons, hnone, keys_none]

private theorem keys_of_not_revoked {isLocal : Bool} {steps : List KeyStep} (h : ¬ Revoked isLocal steps)
    (k : Keys JsString ℤ) : steps.foldl (keysAfter isLocal) (some k) = some (k.run windowEnd (rotations steps)) := by
  induction steps generalizing k with
  | nil => rfl
  | cons x steps ih =>
    have hrest : ¬ Revoked isLocal steps := fun ⟨hlocal, y, hy, hop⟩ => h ⟨hlocal, y, List.mem_cons_of_mem _ hy, hop⟩
    obtain ⟨time, maker, op⟩ := x
    cases op with
    | rotate secret => exact ih hrest _
    | revoke =>
      have hlocal : isLocal = true := by
        by_contra hremote
        exact h ⟨by simpa using hremote, _, List.mem_cons_self, rfl⟩
      rw [List.foldl_cons, keysAfter]
      dsimp only
      rw [if_pos hlocal, ih hrest]
      rfl

/-- A revoked node is not answered, listed or authenticated. -/
theorem Keyed.revoked {id : NodeId} {isLocal : Bool} {s : NodeStore} (h : Keyed id isLocal s none) (t : ℤ) :
    (s.get id).2 = none ∧ (∀ l ∈ s.list.2, l.id ≠ id) ∧ s.secretsAt id t = [] := by
  obtain ⟨v, nodes, n, hagrees, hn, -, hrevoked⟩ := h
  have hrevoked : n.revoked = true := hrevoked
  have hfind : s.load.find id = some n := (hagrees.find_load id).trans hn
  have hanswer : s.answer id = none := by
    rw [answer_eq, hfind, Option.filter_some, hrevoked]
    rfl
  refine ⟨?_, ?_, ?_⟩
  · unfold NodeStore.get
    dsimp only
    rw [hfind, Option.any_some, hrevoked]
    rfl
  · intro l hl hid
    unfold NodeStore.list at hl
    dsimp only at hl
    rw [List.mem_filterMap] at hl
    obtain ⟨id', -, hl⟩ := hl
    rw [Option.map_eq_some_iff] at hl
    obtain ⟨m, hm, rfl⟩ := hl
    obtain rfl : id' = id := hid
    rw [hfind, Option.filter_some, hrevoked] at hm
    cases hm
  · rw [secretsAt, hanswer]
    rfl

private theorem Keyed.mem_secretsAt_iff {id : NodeId} {isLocal : Bool} {s : NodeStore} {k : Keys JsString ℤ}
    (h : Keyed id isLocal s (some k)) (t : ℤ) (secret : JsString) :
    secret ∈ s.secretsAt id t ↔ k.Works windowEnd t secret := by
  obtain ⟨v, nodes, n, hagrees, hn, -, hactive, hholds⟩ := h
  have hanswer : s.answer id = some n := by
    rw [hagrees.answer, hn, Option.filter_some, hactive]
    rfl
  rw [secretsAt, hanswer]
  exact hholds.mem_candidates_iff hactive t secret

/-- **The law of rotations.**  For every node with its record, and every order of rotations and revocations, made by
the hub or by `servitals-ctl`, at times in order, and every later moment: unless it was revoked, the secrets that
authenticate are the newest one and, for 24 hours from the beginning of its window, the one that was current when the
window began; a secret that stopped being current, and was not drawn again, authenticates no longer after 24 hours; and
after a revocation no secret does, and the node is neither answered nor listed. -/
theorem rotation_law {s : NodeStore} {v : ℕ} {nodes : OMap NodeId NodeRec} {id : NodeId} {n : NodeRec}
    {k : Keys JsString ℤ} (hagrees : s.Agrees v nodes) (hn : nodes.get? id = some n) (hactive : n.revoked = false)
    (hk : n.Holds k) (steps : List KeyStep) (t : ℤ)
    (htimes : (k.window.toList.map Prod.snd ++ steps.map KeyStep.time).Pairwise (· ≤ ·)) :
    let s' := Runs.run (keyStep id) s steps
    let k' := k.run windowEnd (rotations steps)
    (¬ Revoked n.isLocal steps → ∀ secret, secret ∈ s'.secretsAt id t ↔
        secret = k'.newest ∨ ∃ u, k'.window = some (secret, u) ∧ t < u + NodeRec.OVERLAP_MS) ∧
      (∀ pre x post new, steps = pre ++ x :: post → x.op = .rotate new →
        let old := (k.run windowEnd (rotations pre)).newest
        (∀ r ∈ rotations (x :: post), r.2 ≠ old) → x.time + NodeRec.OVERLAP_MS ≤ t → old ∉ s'.secretsAt id t) ∧
      (Revoked n.isLocal steps →
        (s'.get id).2 = none ∧ (∀ l ∈ s'.list.2, l.id ≠ id) ∧ s'.secretsAt id t = []) := by
  intro s' k'
  have hstart : Keyed id n.isLocal s (some k) := ⟨v, nodes, n, hagrees, hn, rfl, hactive, hk⟩
  have hrun := hstart.run steps
  have hworks : ¬ Revoked n.isLocal steps → ∀ secret, secret ∈ s'.secretsAt id t ↔ k'.Works windowEnd t secret := by
    intro hnot secret
    rw [keys_of_not_revoked hnot] at hrun
    exact hrun.mem_secretsAt_iff t secret
  refine ⟨hworks, ?_, fun hrevoked => ?_⟩
  · intro pre x post new e hop old hnew ht
    by_cases hrevoked : Revoked n.isLocal steps
    · rw [keys_of_revoked hrevoked] at hrun
      rw [(hrun.revoked t).2.2]
      exact List.not_mem_nil
    · have hbefore : ∀ u ∈ k.window.toList.map Prod.snd ++ pre.map KeyStep.time, u ≤ x.time := by
        rw [e, List.map_append, ← List.append_assoc, List.pairwise_append] at htimes
        exact fun u hu => htimes.2.2 u hu x.time List.mem_cons_self
      have hsplit : rotations steps = rotations pre ++ (x.time, new.1) :: rotations post := by
        rw [e, rotations_append, rotations_cons hop]
      rw [rotations_cons hop] at hnew
      rw [hworks hrevoked]
      show ¬ (k.run windowEnd (rotations steps)).Works windowEnd t old
      rw [hsplit]
      refine Keys.not_works_of_replaced monotone_windowEnd (fun w hw => ?_) (fun r hr => ?_) hnew ht
      · exact hbefore _ (List.mem_append_left _ (List.mem_map_of_mem (Option.mem_toList.2 hw)))
      · obtain ⟨y, hy, htime⟩ := time_of_mem_rotations hr
        rw [← htime]
        exact hbefore _ (List.mem_append_right _ (List.mem_map_of_mem hy))
  · rw [keys_of_revoked hrevoked] at hrun
    exact hrun.revoked t

/-! ### A node rotated twice -/

private theorem isNodeId_rotated : isNodeId (js "rotatedaaaaa") = true := by decide

private def rotatedNode : NodeId := ⟨js "rotatedaaaaa", isNodeId_rotated⟩

private theorem isHex64_a : isHex64 (List.replicate 64 0x61) = true := by decide
private theorem isHex64_b : isHex64 (List.replicate 64 0x62) = true := by decide
private theorem isHex64_c : isHex64 (List.replicate 64 0x63) = true := by decide

private def firstRecord : NodeRec := .fresh (js "nas") ⟨List.replicate 64 0x61, isHex64_a⟩ false 0 none

private def oneNode : OMap NodeId NodeRec := OMap.empty.set rotatedNode firstRecord

private theorem agrees_oneNode : (fromFile (some (1, some oneNode))).Agrees 1 oneNode where
  file := rfl
  version m hm := by cases hm
  memory hm := by cases hm
  placed := placed_empty [] none false _

/-- Rotated by the hub and again by `servitals-ctl` a second later. -/
private def twoRotations : List KeyStep :=
  [⟨0, .hub, .rotate ⟨List.replicate 64 0x62, isHex64_b⟩⟩, ⟨1000, .ctl, .rotate ⟨List.replicate 64 0x63, isHex64_c⟩⟩]

/-- The newest secret and the first one authenticate, the first one for 24 hours; the one in between does not. -/
theorem rotated_twice :
    let s' := Runs.run (keyStep rotatedNode) (fromFile (some (1, some oneNode))) twoRotations
    List.replicate 64 0x63 ∈ s'.secretsAt rotatedNode 2000 ∧
      List.replicate 64 0x61 ∈ s'.secretsAt rotatedNode 86399999 ∧
      List.replicate 64 0x61 ∉ s'.secretsAt rotatedNode 86400000 ∧
      List.replicate 64 0x62 ∉ s'.secretsAt rotatedNode 2000 := by
  have hnot : ¬ Revoked firstRecord.isLocal twoRotations := by
    rintro ⟨-, x, hx, hop⟩
    simp only [twoRotations, List.mem_cons, List.not_mem_nil, or_false] at hx
    rcases hx with rfl | rfl
    · cases hop
    · cases hop
  have hholds : firstRecord.Holds ⟨List.replicate 64 0x61, none⟩ := ⟨rfl, rfl, rfl⟩
  have hlaw := fun t => (rotation_law agrees_oneNode (OMap.get?_set_self _ _ _) rfl hholds twoRotations t
    (by decide)).1 hnot
  have hkeys : Keys.run windowEnd ⟨List.replicate 64 0x61, none⟩ (rotations twoRotations) =
      ⟨List.replicate 64 0x63, some (List.replicate 64 0x61, 0)⟩ := by rfl
  rw [hkeys] at hlaw
  have hac : List.replicate 64 (0x61 : UInt16) ≠ List.replicate 64 0x63 := by decide
  have hbc : List.replicate 64 (0x62 : UInt16) ≠ List.replicate 64 0x63 := by decide
  have hab : List.replicate 64 (0x61 : UInt16) ≠ List.replicate 64 0x62 := by decide
  refine ⟨(hlaw 2000 _).2 (Or.inl rfl), (hlaw 86399999 _).2 (Or.inr ⟨0, rfl, by decide⟩), ?_, ?_⟩
  · rw [hlaw 86400000]
    rintro (h | ⟨u, h, hlt⟩)
    · exact hac h
    · cases h
      exact absurd hlt (by decide)
  · rw [hlaw 2000]
    rintro (h | ⟨u, h, -⟩)
    · exact hbc h
    · rw [Option.some.injEq, Prod.mk.injEq] at h
      exact hab h.1

end NodeStore

end Servitals
