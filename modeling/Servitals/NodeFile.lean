import Servitals.NodeWrites

/-!
# The node store and its file

What the store holds in memory and what `nodes.json` holds, while every write succeeds: the file has the records of the
memory, or was changed since by another process and is read again before the next use (`Agrees`).  Each operation
changes the record it is about and no other, whether the hub makes it or another process over the same file.
-/

namespace Servitals

namespace NodeStore

/-- Each id has a record of its own. -/
structure Placed (s : NodeStore) : Prop where
  bound : ∀ id a, s.table.get? id = some a → a < s.heap.length
  inj : ∀ id id' a, s.table.get? id = some a → s.table.get? id' = some a → id = id'

/-- The file holds `nodes`, in version `v`, and so does the memory unless it is to read the file again. -/
structure Agrees (s : NodeStore) (v : ℕ) (nodes : OMap NodeId NodeRec) : Prop where
  file : s.file = some (v, some nodes)
  version : ∀ m, s.mtime = some m → m ≤ v
  memory : s.mtime = some v → ∀ id, s.find id = nodes.get? id
  placed : s.Placed

/-! ### Records in memory -/

theorem placed_empty (heap : List NodeRec) (mtime : Option ℕ) (unreadable : Bool) (file : NodesFile) :
    Placed ⟨heap, .empty, mtime, unreadable, file⟩ where
  bound id a h := by cases h
  inj id id' a h := by cases h

theorem Placed.alloc {s : NodeStore} (h : s.Placed) (id : NodeId) (n : NodeRec) : (s.alloc id n).Placed := by
  have hget : ∀ id', (s.alloc id n).table.get? id' = if id' = id then some s.heap.length else s.table.get? id' :=
    fun id' => OMap.get?_set _ _ _ _
  constructor
  · intro id' a ha
    rw [hget] at ha
    show a < (s.heap ++ [n]).length
    rw [List.length_append, List.length_singleton]
    split at ha
    · cases ha
      exact Nat.lt_succ_self _
    · exact (h.bound id' a ha).trans (Nat.lt_succ_self _)
  · intro id₁ id₂ a h₁ h₂
    rw [hget] at h₁ h₂
    split at h₁
    · split at h₂
      · simp_all
      · cases h₁
        exact absurd (h.bound id₂ _ h₂) (lt_irrefl _)
    · split at h₂
      · cases h₂
        exact absurd (h.bound id₁ _ h₁) (lt_irrefl _)
      · exact h.inj id₁ id₂ a h₁ h₂

theorem Placed.find_alloc {s : NodeStore} (h : s.Placed) (id id' : NodeId) (n : NodeRec) :
    (s.alloc id n).find id' = if id' = id then some n else s.find id' := by
  rw [find, show (s.alloc id n).table = s.table.set id s.heap.length from rfl, OMap.get?_set,
    show (s.alloc id n).heap = s.heap ++ [n] from rfl]
  split
  · exact List.getElem?_concat_length
  · rw [find]
    cases ha : s.table.get? id' with
    | none => rfl
    | some a => exact List.getElem?_append_left (h.bound id' a ha)

/-- A record changed in place. -/
theorem Placed.set {s : NodeStore} (h : s.Placed) (a : ℕ) (n : NodeRec) : Placed { s with heap := s.heap.set a n } :=
  ⟨fun id b hb => by rw [List.length_set]; exact h.bound id b hb, h.inj⟩

theorem Placed.find_set {s : NodeStore} (h : s.Placed) {id : NodeId} {a : ℕ} (ha : s.table.get? id = some a)
    (n : NodeRec) (id' : NodeId) :
    ({ s with heap := s.heap.set a n } : NodeStore).find id' = if id' = id then some n else s.find id' := by
  rw [find, find]
  split
  · rename_i heq
    subst heq
    rw [ha]
    exact List.getElem?_set_self (h.bound _ a ha)
  · rename_i hne
    cases hb : s.table.get? id' with
    | none => rfl
    | some b => exact List.getElem?_set_ne fun hab => hne (h.inj id' id a (by rw [hb, hab]) ha)

/-- Records read from the file. -/
theorem Placed.foldl_alloc {s : NodeStore} (h : s.Placed) {es : List (NodeId × NodeRec)} (hes : (es.map Prod.fst).Nodup) :
    (es.foldl (fun s e => s.alloc e.1 e.2) s).Placed ∧
      ∀ id, (es.foldl (fun s e => s.alloc e.1 e.2) s).find id =
        ((es.find? fun e => e.1 = id).map Prod.snd).or (s.find id) := by
  induction es generalizing s with
  | nil => exact ⟨h, fun id => rfl⟩
  | cons e es ih =>
    rw [List.map_cons, List.nodup_cons] at hes
    obtain ⟨hplaced, hfind⟩ := ih (h.alloc e.1 e.2) hes.2
    refine ⟨hplaced, fun id => ?_⟩
    rw [List.foldl_cons, hfind, h.find_alloc, List.find?_cons]
    by_cases hid : id = e.1
    · subst hid
      have hnone : es.find? (fun x => x.1 = e.1) = none := by
        rw [List.find?_eq_none]
        intro x hx hkey
        exact hes.1 (of_decide_eq_true hkey ▸ List.mem_map_of_mem hx)
      simp [hnone]
    · simp [hid, Ne.symm hid]

/-- `contents` has the records that `find` finds. -/
private theorem get?_contents (s : NodeStore) (id : NodeId) : s.contents.get? id = s.find id := by
  have hcontents : s.contents = s.table.entries.foldl (fun m e => (s.heap[e.2]?).elim m fun n => m.set e.1 n) .empty := by
    unfold contents
    congr 1
    funext m e
    cases s.heap[e.2]? <;> rfl
  have hfold : ∀ (es : List (NodeId × ℕ)) (m : OMap NodeId NodeRec), (es.map Prod.fst).Nodup →
      (es.foldl (fun m e => (s.heap[e.2]?).elim m fun n => m.set e.1 n) m).get? id =
        ((es.find? fun e => e.1 = id).bind fun e => s.heap[e.2]?).or (m.get? id) := by
    intro es
    induction es with
    | nil => exact fun m _ => rfl
    | cons e es ih =>
      intro m hes
      rw [List.map_cons, List.nodup_cons] at hes
      rw [List.foldl_cons, ih _ hes.2, List.find?_cons]
      by_cases hid : e.1 = id
      · have hnone : es.find? (fun x => x.1 = id) = none := by
          rw [List.find?_eq_none]
          intro x hx hkey
          exact hes.1 (hid ▸ of_decide_eq_true hkey ▸ List.mem_map_of_mem hx)
        cases hget : s.heap[e.2]? with
        | none => simp [hnone, hid, hget]
        | some n => simp [hnone, hid, hget]
      · cases hget : s.heap[e.2]? with
        | none => simp [hid]
        | some n => simp [hid, OMap.get?_set_of_ne _ (Ne.symm hid)]
  rw [hcontents, hfold _ _ s.table.nodup, OMap.get?_empty, Option.or_none, find, OMap.get?, Option.bind_map]
  rfl

/-! ### The file -/

/-- A save writes what the memory holds. -/
private theorem Placed.agrees_save {s : NodeStore} (h : s.Placed) :
    (s.save true).Agrees (s.file.elim 0 Prod.fst + 1) s.contents where
  file := rfl
  version _ hm := (Option.some.inj hm).ge
  memory _ id := (get?_contents s id).symm
  placed := ⟨h.bound, h.inj⟩

namespace Agrees

variable {s : NodeStore} {v : ℕ} {nodes : OMap NodeId NodeRec}

/-- The file is read, where it changed. -/
theorem load (h : s.Agrees v nodes) : s.load.Agrees v nodes ∧ s.load.mtime = some v := by
  obtain ⟨heap, table, mtime, unreadable, file⟩ := s
  obtain rfl : file = some (v, some nodes) := h.file
  unfold NodeStore.load
  dsimp only
  split
  · rename_i hmtime
    exact ⟨h, hmtime⟩
  · obtain ⟨hfile, hmtime, -⟩ := foldl_alloc nodes.entries
      ⟨heap, .empty, some v, false, some (v, some nodes)⟩
    obtain ⟨hplaced, hfind⟩ := (placed_empty heap (some v) false (some (v, some nodes))).foldl_alloc nodes.nodup
    refine ⟨⟨hfile, fun m hm => ?_, fun _ id => ?_, hplaced⟩, hmtime⟩
    · rw [hmtime] at hm
      cases hm
      exact le_rfl
    · rw [hfind]
      exact Option.or_none

/-- What the store finds is what the file says. -/
theorem find_load (h : s.Agrees v nodes) (id : NodeId) : s.load.find id = nodes.get? id :=
  h.load.1.memory h.load.2 id

theorem answer (h : s.Agrees v nodes) (id : NodeId) : s.answer id = (nodes.get? id).filter fun n => !n.revoked := by
  rw [answer_eq, h.find_load]

/-- A new process over the file. -/
theorem fromFile (h : s.Agrees v nodes) : (NodeStore.fromFile s.file).Agrees v nodes where
  file := h.file
  version m hm := by cases hm
  memory hm := by cases hm
  placed := placed_empty [] none false s.file

/-- A save over a file writes the next version of it. -/
theorem save (hfile : s.file = some (v, some nodes)) (hplaced : s.Placed) : (s.save true).Agrees (v + 1) s.contents := by
  have h := hplaced.agrees_save
  rwa [hfile] at h

/-- A change that is written changes the record it is about and no other. -/
theorem change (h : s.Agrees v nodes) (id : NodeId) (fn : (n : NodeRec) → n.revoked = false → Except JsString NodeRec) :
    (∃ n hn n' nodes', nodes.get? id = some n ∧ fn n hn = .ok n' ∧ (s.change id fn true).1.Agrees (v + 1) nodes' ∧
        ∀ id', nodes'.get? id' = if id' = id then some n' else nodes.get? id') ∨
      (∀ n, nodes.get? id = some n → ∀ hn n', fn n hn ≠ .ok n') ∧ (s.change id fn true).1 = s.load := by
  obtain ⟨hload, hmtime⟩ := h.load
  have hfind := h.find_load id
  unfold NodeStore.change
  dsimp only
  cases ha : s.load.table.get? id with
  | none =>
    rw [find, ha] at hfind
    refine Or.inr ⟨fun n hn => ?_, rfl⟩
    rw [← hfind] at hn
    cases hn
  | some a =>
    dsimp only
    cases hn : s.load.heap[a]? with
    | none =>
      rw [find, ha, Option.bind_some, hn] at hfind
      refine Or.inr ⟨fun n hn => ?_, rfl⟩
      rw [← hfind] at hn
      cases hn
    | some n =>
      rw [find, ha, Option.bind_some, hn] at hfind
      dsimp only
      split
      · rename_i hrevoked
        cases hfn : fn n hrevoked with
        | error e =>
          refine Or.inr ⟨fun m hm hn' m' hm' => ?_, rfl⟩
          rw [← hfind] at hm
          cases hm
          rw [hfn] at hm'
          cases hm'
        | ok n' =>
          refine Or.inl ⟨n, hrevoked, n', _, hfind.symm, hfn,
            @save { s.load with heap := s.load.heap.set a n' } v nodes hload.file (hload.placed.set a n'), fun id' => ?_⟩
          rw [get?_contents, hload.placed.find_set ha n' id', h.find_load]
      · rename_i hrevoked
        refine Or.inr ⟨fun m hm hn' => ?_, rfl⟩
        rw [← hfind] at hm
        cases hm
        exact absurd hn' hrevoked

/-- A change that throws leaves the store as it was read. -/
theorem change_thrown {id : NodeId} {fn : (n : NodeRec) → n.revoked = false → Except JsString NodeRec} {e : JsString}
    (h : (s.change id fn true).2 = .error e) : (s.change id fn true).1 = s.load := by
  revert h
  unfold NodeStore.change
  dsimp only
  split
  · exact fun _ => rfl
  · split
    · exact fun _ => rfl
    · split
      · split
        · exact fun _ => rfl
        · intro h
          cases h
      · exact fun _ => rfl

/-- A node that is added gets an id that no other has. -/
theorem add (h : s.Agrees v nodes) (name : JsString) (tags : List JsString) (secret : JsString) (drawn : List NodeId)
    (t : ℤ) :
    (∃ id n nodes', nodes.get? id = none ∧ (s.add name tags secret drawn t true).1.Agrees (v + 1) nodes' ∧
        ∀ id', nodes'.get? id' = if id' = id then some n else nodes.get? id') ∨
      (s.add name tags secret drawn t true).1.Agrees v nodes := by
  obtain ⟨hload, hmtime⟩ := h.load
  unfold NodeStore.add
  split
  · exact Or.inr h
  · rename_i clean _
    split
    · rename_i hsecret
      dsimp only
      split
      · exact Or.inr hload
      · split
        · exact Or.inr hload
        · rename_i id hid
          have hnone : nodes.get? id = none := by
            have hcontains := List.find?_some hid
            have htable : s.load.table.get? id = none := by simpa [OMap.contains] using hcontains
            rw [← h.find_load, find, htable]
            rfl
          refine Or.inl ⟨id, .fresh clean ⟨secret, hsecret⟩ false t (some tags), _, hnone,
            @save (s.load.alloc id _) v nodes hload.file (hload.placed.alloc id _), fun id' => ?_⟩
          rw [get?_contents, hload.placed.find_alloc, h.find_load]
    · exact Or.inr h

end Agrees

/-- A process that starts has read its file, or written it with the local node. -/
theorem Agrees.ensureLocal {s : NodeStore} {v : ℕ} {nodes : OMap NodeId NodeRec} (h : s.Agrees v nodes) (name : JsString)
    (id : NodeId) (secret : Secret) (t : ℤ) : ∃ v' nodes', (s.ensureLocal name id secret t true).1.Agrees v' nodes' ∧
      ∀ id', nodes'.get? id' = nodes.get? id' ∨ ∃ n, nodes'.get? id' = some n ∧ n.revoked = false := by
  obtain ⟨hload, hmtime⟩ := h.load
  unfold NodeStore.ensureLocal
  dsimp only
  split
  · exact ⟨v, nodes, hload, fun _ => Or.inl rfl⟩
  · split
    · exact ⟨v, nodes, hload, fun _ => Or.inl rfl⟩
    · refine ⟨v + 1, _, @Agrees.save (s.load.alloc id _) v nodes hload.file (hload.placed.alloc id _), fun id' => ?_⟩
      rw [get?_contents, hload.placed.find_alloc]
      split
      · exact Or.inr ⟨_, rfl, rfl⟩
      · exact Or.inl (h.find_load id')

/-- The store of a new process, over a file or none. -/
theorem agrees_start (file : Option (ℕ × OMap NodeId NodeRec)) (name : JsString) (id : NodeId) (secret : Secret) (t : ℤ) :
    ∃ v nodes, ((NodeStore.fromFile (file.map fun f => (f.1, some f.2))).ensureLocal name id secret t true).1.Agrees v
      nodes := by
  cases file with
  | none => exact ⟨_, _, ((placed_empty [] none false none).alloc id (.fresh name secret true t none)).agrees_save⟩
  | some f =>
    have hread : (NodeStore.fromFile (some (f.1, some f.2))).Agrees f.1 f.2 :=
      ⟨rfl, fun m hm => (by cases hm), fun hm => (by cases hm), placed_empty [] none false _⟩
    obtain ⟨v, nodes, hagrees, -⟩ := hread.ensureLocal name id secret t
    exact ⟨v, nodes, hagrees⟩

/-! ### Another process over the file -/

/-- Who makes an operation: the hub, or `servitals-ctl`, a process of its own over the same file. -/
inductive Maker
  | hub | ctl
  deriving DecidableEq

/-- The hub's store after an operation. -/
def made (s : NodeStore) (f : NodeStore → NodeStore) : Maker → NodeStore
  | .hub => f s
  | .ctl => { s with file := (f (fromFile s.file)).file }

/-- What another process made of the file is read before the next use. -/
private theorem Agrees.made_ctl {s : NodeStore} {v v' : ℕ} {nodes nodes' : OMap NodeId NodeRec} (h : s.Agrees v nodes)
    {f : NodeStore → NodeStore} (hf : (f (NodeStore.fromFile s.file)).Agrees v' nodes')
    (hv : v < v' ∨ v = v' ∧ nodes = nodes') : (s.made f .ctl).Agrees v' nodes' where
  file := hf.file
  version m hm := by
    have hm := h.version m hm
    omega
  memory hm := by
    rcases hv with hv | ⟨rfl, rfl⟩
    · have hm := h.version v' hm
      omega
    · exact h.memory hm
  placed := ⟨h.placed.bound, h.placed.inj⟩

/-- A change made by either. -/
theorem Agrees.made_change {s : NodeStore} {v : ℕ} {nodes : OMap NodeId NodeRec} (h : s.Agrees v nodes) (who : Maker)
    (id : NodeId) (fn : (n : NodeRec) → n.revoked = false → Except JsString NodeRec) :
    (∃ n hn n' nodes', nodes.get? id = some n ∧ fn n hn = .ok n' ∧
        (s.made (fun s => (s.change id fn true).1) who).Agrees (v + 1) nodes' ∧
        ∀ id', nodes'.get? id' = if id' = id then some n' else nodes.get? id') ∨
      (∀ n, nodes.get? id = some n → ∀ hn n', fn n hn ≠ .ok n') ∧
        (s.made (fun s => (s.change id fn true).1) who).Agrees v nodes := by
  cases who with
  | hub =>
    refine (h.change id fn).imp_right fun ⟨hno, heq⟩ => ⟨hno, ?_⟩
    show (s.change id fn true).1.Agrees v nodes
    rw [heq]
    exact h.load.1
  | ctl =>
    rcases h.fromFile.change id fn with ⟨n, hn, n', nodes', hget, hok, hagrees, hnodes⟩ | ⟨hno, heq⟩
    · exact Or.inl ⟨n, hn, n', nodes', hget, hok, h.made_ctl hagrees (Or.inl (Nat.lt_succ_self v)), hnodes⟩
    · refine Or.inr ⟨hno, h.made_ctl ?_ (Or.inr ⟨rfl, rfl⟩)⟩
      rw [heq]
      exact h.fromFile.load.1

/-- A node that is added by either. -/
theorem Agrees.made_add {s : NodeStore} {v : ℕ} {nodes : OMap NodeId NodeRec} (h : s.Agrees v nodes) (who : Maker)
    (name : JsString) (tags : List JsString) (secret : JsString) (drawn : List NodeId) (t : ℤ) :
    ∃ v' nodes', (s.made (fun s => (s.add name tags secret drawn t true).1) who).Agrees v' nodes' ∧
      ∀ id n, nodes.get? id = some n → nodes'.get? id = some n := by
  have hkept : ∀ (id : NodeId) (n : NodeRec) (nodes' : OMap NodeId NodeRec), nodes.get? id = none →
      (∀ id', nodes'.get? id' = if id' = id then some n else nodes.get? id') →
      ∀ id' n', nodes.get? id' = some n' → nodes'.get? id' = some n' := by
    intro id n nodes' hnone hnodes id' n' hn'
    rw [hnodes, if_neg, hn']
    rintro rfl
    rw [hnone] at hn'
    cases hn'
  cases who with
  | hub =>
    rcases h.add name tags secret drawn t with ⟨id, n, nodes', hnone, hagrees, hnodes⟩ | hsame
    · exact ⟨v + 1, nodes', hagrees, hkept id n nodes' hnone hnodes⟩
    · exact ⟨v, nodes, hsame, fun _ _ hn => hn⟩
  | ctl =>
    rcases h.fromFile.add name tags secret drawn t with ⟨id, n, nodes', hnone, hagrees, hnodes⟩ | hsame
    · exact ⟨v + 1, nodes', h.made_ctl hagrees (Or.inl (Nat.lt_succ_self v)), hkept id n nodes' hnone hnodes⟩
    · exact ⟨v, nodes, h.made_ctl hsame (Or.inr ⟨rfl, rfl⟩), fun _ _ hn => hn⟩

end NodeStore

end Servitals
