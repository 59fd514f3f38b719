import Servitals.Nodes

/-!
# When the file cannot be written

An operation of the node store changes its records in memory and then writes the file.  When that fails it throws, and
the change stays in memory: `get` and `list` answer it, and the next save writes it.
-/

namespace Servitals

namespace NodeStore

/-- An operation that changes the store. -/
inductive Change
  | store (op : StoreOp)
  | ensureLocal (name : JsString) (id : NodeId) (secret : Secret) (written : Bool)

/-- The store after an operation, and what it throws. -/
def attempt (s : NodeStore) (t : ℤ) : Change → NodeStore × Except JsString Unit
  | .store (.add name tags secret drawn written) =>
    let r := s.add name tags secret drawn t written
    (r.1, r.2.map fun _ => ())
  | .store (.rename id name written) => s.rename id name written
  | .store (.setTags id tags written) => s.setTags id tags written
  | .store (.revoke id written) => s.revoke id written
  | .store (.rotate id secret written) => s.rotate id secret t written
  | .ensureLocal name id secret written =>
    let r := s.ensureLocal name id secret t written
    (r.1, r.2.map fun _ => ())

/-- The record that `get` answers with. -/
def answer (s : NodeStore) (id : NodeId) : Option NodeRec := (s.get id).2.bind fun a => (s.get id).1.heap[a]?

/-- The file, what `get` and `list` answer, and what the next save would write, are as before. -/
structure AsBefore (s s' : NodeStore) : Prop where
  file : s'.file = s.file
  answer : ∀ id, s'.answer id = s.answer id
  list : s'.list.2 = s.list.2
  contents : s'.load.contents = s.load.contents

/-- The operation is refused before it changes a record, or gives the record as it is. -/
def Harmless (s : NodeStore) (t : ℤ) : Change → Prop
  | .store (.add name tags secret _ _) =>
    (∀ clean, checkNode name tags ≠ .ok clean) ∨ isHex64 secret = false ∨ s.load.unreadable = true
  | .store (.rename id name _) => ∀ n, s.answer id = some n → ∀ clean, checkName name = .ok clean → clean = n.name
  | .store (.setTags id tags _) => ∀ n, s.answer id = some n → ∀ clean, checkNode n.name tags = .ok clean →
    n.tags = some tags.eraseDups
  | .store (.revoke id _) => ∀ n, s.answer id = some n → n.isLocal = true
  | .store (.rotate id secret _) => ∀ n, s.answer id = some n → n.secret = secret.1 ∧ n.overlaps t = true
  | .ensureLocal _ _ _ _ => s.load.unreadable = true

/-! ### Reading -/

/-- The store after `load`: without a file it has no records, and a file that changed since does not parse. -/
def Loaded (s : NodeStore) : Prop :=
  (s.file = none ∧ s.table = .empty ∧ s.mtime = none ∧ s.unreadable = false) ∨
    ∃ v content, s.file = some (v, content) ∧
      (s.mtime = some v ∨ (content = none ∧ (s.mtime = none → s.unreadable = true)))

private theorem loaded_load (s : NodeStore) : s.load.Loaded ∧ s.load.file = s.file := by
  unfold load
  split
  · rename_i hfile
    exact ⟨Or.inl ⟨hfile, rfl, rfl, rfl⟩, rfl⟩
  · rename_i v content hfile
    split
    · rename_i hmtime
      exact ⟨Or.inr ⟨v, content, hfile, Or.inl hmtime⟩, rfl⟩
    · split
      · rename_i nodes
        obtain ⟨hf, hm, -⟩ := foldl_alloc nodes.entries
          { s with table := .empty, mtime := some v, unreadable := false }
        exact ⟨Or.inr ⟨v, some nodes, hf.trans hfile, Or.inl hm⟩, hf⟩
      · split
        · exact ⟨Or.inr ⟨v, none, hfile, Or.inr ⟨rfl, fun _ => rfl⟩⟩, rfl⟩
        · rename_i hsome
          exact ⟨Or.inr ⟨v, none, hfile, Or.inr ⟨rfl, fun hnone => absurd hnone hsome⟩⟩, rfl⟩

private theorem Loaded.load_eq {s : NodeStore} (h : s.Loaded) : s.load = s := by
  obtain ⟨heap, table, mtime, unreadable, file⟩ := s
  rcases h with ⟨hfile, htable, hmtime, hreadable⟩ | ⟨v, content, hfile, h⟩
  · cases hfile
    cases htable
    cases hmtime
    cases hreadable
    rfl
  · cases hfile
    rcases h with h | ⟨rfl, hreadable⟩
    · cases h
      exact if_pos rfl
    · unfold load
      dsimp only at hreadable ⊢
      split
      · rfl
      · split
        · rename_i hnone
          rw [hreadable hnone]
        · rfl

theorem load_load (s : NodeStore) : s.load.load = s.load := (loaded_load s).1.load_eq

/-- Records changed in memory are answered as they are while there is a file. -/
private theorem load_of_changed {s : NodeStore} (hfile : s.file ≠ none) (heap : List NodeRec) (table : OMap NodeId ℕ) :
    ({ s.load with heap := heap, table := table } : NodeStore).load = { s.load with heap := heap, table := table } := by
  obtain ⟨hloaded, hf⟩ := loaded_load s
  apply Loaded.load_eq
  rcases hloaded with ⟨hnone, -⟩ | h
  · exact absurd (hf.symm.trans hnone) hfile
  · exact Or.inr h

theorem answer_eq (s : NodeStore) (id : NodeId) : s.answer id = (s.load.find id).filter fun n => !n.revoked := by
  unfold answer get
  dsimp only
  split
  · rename_i hany
    obtain ⟨n, hn, hrevoked⟩ := (Option.any_eq_true _ _).1 hany
    rw [hn, Option.filter_some, if_pos hrevoked]
    exact hn
  · rename_i hany
    rw [Option.bind_none, eq_comm, Option.filter_eq_none_iff]
    intro n hn hrevoked
    exact hany ((Option.any_eq_true _ _).2 ⟨n, hn, hrevoked⟩)

/-- A store that reads the same answers the same. -/
private theorem asBefore_of_load {s s' : NodeStore} (hfile : s'.file = s.file) (hload : s'.load = s.load) :
    AsBefore s s' := by
  refine ⟨hfile, fun id => ?_, ?_, ?_⟩
  · rw [answer_eq, answer_eq, hload]
  · unfold NodeStore.list
    rw [hload]
  · rw [hload]

private theorem asBefore_load (s : NodeStore) : AsBefore s s.load := asBefore_of_load (loaded_load s).2 (load_load s)

/-! ### Operations that fail -/

private theorem load_of_missing {s : NodeStore} (h : s.file = none) :
    s.load = { s with table := .empty, mtime := none, unreadable := false } := by
  unfold load
  rw [h]

/-- A record changed in place while the file cannot be written. -/
private theorem change_failed {s : NodeStore} {id : NodeId}
    {fn : (n : NodeRec) → n.revoked = false → Except JsString NodeRec}
    {written : Bool} {e : JsString} (h : (s.change id fn written).2 = .error e) :
    AsBefore s (s.change id fn written).1 ↔
      ∀ n, s.answer id = some n → ∀ hn n', fn n hn = .ok n' → n' = n := by
  have hnone : (s.load.find id).filter (fun n => !n.revoked) = none →
      (AsBefore s s.load ↔ ∀ n, s.answer id = some n → ∀ hn n', fn n hn = .ok n' → n' = n) := by
    intro hfilter
    refine iff_of_true (asBefore_load s) fun n hn => ?_
    rw [answer_eq, hfilter] at hn
    cases hn
  unfold change at h ⊢
  dsimp only at h ⊢
  split
  · rename_i htable
    apply hnone
    rw [find, htable]
    rfl
  · rename_i a htable
    split
    · rename_i hheap
      apply hnone
      rw [find, htable, Option.bind_some, hheap]
      rfl
    · rename_i n hheap
      have hfind : s.load.find id = some n := by
        rw [find, htable]
        exact hheap
      split
      · rename_i hrevoked
        have hanswer : s.answer id = some n := by
          rw [answer_eq, hfind, Option.filter_some, hrevoked]
          rfl
        split
        · rename_i e' hfn
          refine iff_of_true (asBefore_load s) fun n' hn' hn m hm => ?_
          obtain rfl := Option.some.inj (hanswer.symm.trans hn')
          rw [hfn] at hm
          cases hm
        · rename_i n' hfn
          rw [htable] at h
          simp only [hheap, hrevoked, dite_true, hfn] at h
          cases written with
          | true => cases h
          | false =>
            have hfile : s.file ≠ none := by
              intro hmissing
              rw [load_of_missing hmissing] at htable
              cases htable
            have hload : ({ s.load with heap := s.load.heap.set a n' } : NodeStore).load =
                { s.load with heap := s.load.heap.set a n' } := load_of_changed hfile _ _
            show AsBefore s { s.load with heap := s.load.heap.set a n' } ↔ _
            constructor
            · intro hbefore m hm hn m' hm'
              obtain rfl := Option.some.inj (hanswer.symm.trans hm)
              obtain rfl := Except.ok.inj (hfn.symm.trans hm')
              have hlt : a < s.load.heap.length := (List.getElem?_eq_some_iff.1 hheap).1
              have hchanged := hbefore.answer id
              rw [hanswer, answer_eq, hload, find, htable, Option.bind_some, List.getElem?_set_self hlt,
                Option.filter_eq_some_iff] at hchanged
              exact Option.some.inj hchanged.1
            · intro hsame
              obtain rfl := hsame n hanswer hrevoked n' hfn
              obtain ⟨hlt, hget⟩ := List.getElem?_eq_some_iff.1 hheap
              have hset : s.load.heap.set a n' = s.load.heap := by
                rw [← hget]
                exact List.set_getElem_self hlt
              rw [hset]
              exact asBefore_load s
      · rename_i hrevoked
        apply hnone
        rw [hfind, Option.filter_some]
        simpa using hrevoked

/-- A node added in memory while the file cannot be written. -/
private theorem alloc_failed {s : NodeStore} {id : NodeId} {n : NodeRec} (hid : s.answer id ≠ some n)
    (hn : n.revoked = false) : AsBefore s (s.load.alloc id n) ↔ s.file = none := by
  constructor
  · intro h
    by_contra hfile
    have hload : (s.load.alloc id n).load = s.load.alloc id n := load_of_changed hfile _ _
    have hanswer : (s.load.alloc id n).answer id = some n := by
      rw [answer_eq, hload, find, alloc, OMap.get?_set_self, Option.bind_some, List.getElem?_concat_length,
        Option.filter_some, hn]
      rfl
    rw [h.answer] at hanswer
    exact hid hanswer
  · intro hfile
    have hload := load_of_missing hfile
    have hload' : (s.load.alloc id n).load =
        { s.load.alloc id n with table := .empty, mtime := none, unreadable := false } :=
      load_of_missing ((loaded_load s).2.trans hfile)
    refine ⟨(loaded_load s).2, fun id' => ?_, ?_, ?_⟩
    · rw [answer_eq, answer_eq, hload', hload]
      rfl
    · unfold NodeStore.list
      rw [hload', hload]
      rfl
    · rw [hload', hload]
      rfl

private theorem rotate_eq_self_iff {n : NodeRec} (hn : n.revoked = false) (secret : Secret) (t : ℤ) :
    n.rotate hn secret t = n ↔ n.secret = secret.1 ∧ n.overlaps t = true := by
  constructor
  · intro h
    refine ⟨(congrArg NodeRec.secret h).symm, ?_⟩
    by_contra hno
    have hold : (n.rotate hn secret t).oldSecret = some n.secret := if_neg hno
    have huntil : (n.rotate hn secret t).oldUntil = some (t + NodeRec.OVERLAP_MS) := if_neg hno
    rw [h] at hold huntil
    apply hno
    have hlater : t < t + NodeRec.OVERLAP_MS := by
      have : 0 < NodeRec.OVERLAP_MS := by decide
      omega
    unfold NodeRec.overlaps
    rw [hold, huntil, Option.any_some, decide_eq_true hlater]
    rfl
  · rintro ⟨hsecret, hoverlaps⟩
    unfold NodeRec.rotate
    simp only [hoverlaps, if_true, ← hsecret]

private theorem add_failed {s : NodeStore} {t : ℤ} {name secret e : JsString} {tags : List JsString}
    {drawn : List NodeId} {written : Bool} (h : (s.add name tags secret drawn t written).2 = .error e) :
    AsBefore s (s.add name tags secret drawn t written).1 ↔
      s.file = none ∨ Harmless s t (.store (.add name tags secret drawn written)) := by
  unfold add at h ⊢
  unfold Harmless
  split
  · rename_i e' hname
    refine iff_of_true (asBefore_of_load rfl rfl) (Or.inr (Or.inl fun clean hclean => ?_))
    rw [hname] at hclean
    cases hclean
  · rename_i clean hname
    split
    · rename_i hsecret
      dsimp only
      split
      · rename_i hunreadable
        exact iff_of_true (asBefore_load s) (Or.inr (Or.inr (Or.inr hunreadable)))
      · rename_i hreadable
        have hharm : ¬ ((∀ clean, checkNode name tags ≠ .ok clean) ∨ isHex64 secret = false ∨
            s.load.unreadable = true) := by
          rintro (hno | hno | hno)
          · exact hno clean hname
          · rw [hsecret] at hno
            cases hno
          · exact hreadable hno
        rw [or_iff_left hharm]
        simp only [hname, hsecret, dite_true, if_neg hreadable] at h
        split
        · rename_i hdrawn
          rw [hdrawn] at h
          cases h
        · rename_i id hdrawn
          rw [hdrawn] at h
          cases written with
          | true => cases h
          | false =>
            have hid : s.answer id ≠ some (.fresh clean ⟨secret, hsecret⟩ false t (some tags)) := by
              have htable : s.load.table.get? id = none := by
                have hfree := List.find?_some hdrawn
                simpa [OMap.contains] using hfree
              rw [answer_eq, find, htable]
              intro hsome
              cases hsome
            exact alloc_failed hid rfl
    · rename_i hsecret
      exact iff_of_true (asBefore_of_load rfl rfl) (Or.inr (Or.inr (Or.inl (by simpa using hsecret))))

private theorem ensureLocal_failed {s : NodeStore} {t : ℤ} {name e : JsString} {id : NodeId} {secret : Secret}
    {written : Bool} (h : (s.ensureLocal name id secret t written).2 = .error e) :
    AsBefore s (s.ensureLocal name id secret t written).1 ↔
      s.file = none ∨ Harmless s t (.ensureLocal name id secret written) := by
  unfold ensureLocal at h ⊢
  unfold Harmless
  dsimp only at h ⊢
  split
  · rename_i id' hlocal
    rw [hlocal] at h
    cases h
  · rename_i hlocal
    rw [hlocal] at h
    dsimp only at h
    split
    · rename_i hunreadable
      exact iff_of_true (asBefore_load s) (Or.inr hunreadable)
    · rename_i hreadable
      rw [or_iff_left hreadable]
      rw [if_neg hreadable] at h
      cases written with
      | true => cases h
      | false =>
        have hid : s.answer id ≠ some (.fresh name secret true t none) := by
          intro hsome
          rw [answer_eq, Option.filter_eq_some_iff] at hsome
          have hkey : id ∈ s.load.table.keys := by
            obtain ⟨a, ha, -⟩ := Option.bind_eq_some_iff.1 hsome.1
            exact OMap.mem_keys_iff.2 ⟨a, ha⟩
          have hno := List.find?_eq_none.1 hlocal id hkey
          rw [hsome.1] at hno
          exact hno rfl
        exact alloc_failed hid rfl

private theorem of_map_error {α β : Type*} {r : Except JsString α} {f : α → β} {e : JsString}
    (h : r.map f = .error e) : r = .error e := by
  cases r with
  | error e' =>
    cases h
    rfl
  | ok x => cases h

/-- Without a file no node is answered, so what is said of the answered one is said. -/
private theorem forall_answer_iff {s : NodeStore} {id : NodeId} {P Q : NodeRec → Prop}
    (h : ∀ n, n.revoked = false → (P n ↔ Q n)) :
    (∀ n, s.answer id = some n → P n) ↔ s.file = none ∨ ∀ n, s.answer id = some n → Q n := by
  have hrevoked : ∀ n, s.answer id = some n → n.revoked = false := by
    intro n hn
    rw [answer_eq, Option.filter_eq_some_iff] at hn
    simpa using hn.2
  constructor
  · exact fun hp => Or.inr fun n hn => (h n (hrevoked n hn)).1 (hp n hn)
  · rintro (hmissing | hq) n hn
    · rw [answer_eq, load_of_missing hmissing] at hn
      cases hn
    · exact (h n (hrevoked n hn)).2 (hq n hn)

/-- **An operation that throws** leaves the file, what the store answers and what it would write next as they were, if
and only if it was refused before it changed a record, gives the record as it is, or there is no file. -/
theorem failed_asBefore_iff {s : NodeStore} {t : ℤ} {c : Change} {e : JsString} (h : (s.attempt t c).2 = .error e) :
    AsBefore s (s.attempt t c).1 ↔ s.file = none ∨ Harmless s t c := by
  cases c with
  | ensureLocal name id secret written => exact ensureLocal_failed (of_map_error h)
  | store op =>
    cases op with
    | add name tags secret drawn written => exact add_failed (of_map_error h)
    | rename id name written =>
      refine (change_failed h).trans (forall_answer_iff fun n hn => ?_)
      constructor
      · intro hsame clean hclean
        have hn' := hsame hn { n with name := clean } (by rw [hclean]; rfl)
        exact congrArg NodeRec.name hn'
      · intro hsame _ n' hn'
        cases hclean : checkName name with
        | error e' =>
          rw [hclean] at hn'
          cases hn'
        | ok clean =>
          rw [hclean] at hn'
          cases hn'
          rw [hsame clean hclean]
    | setTags id tags written =>
      refine (change_failed h).trans (forall_answer_iff fun n hn => ?_)
      constructor
      · intro hsame clean hclean
        have hn' := hsame hn { n with tags := some tags.eraseDups } (by rw [hclean]; rfl)
        exact (congrArg NodeRec.tags hn').symm
      · intro hsame _ n' hn'
        cases hclean : checkNode n.name tags with
        | error e' =>
          rw [hclean] at hn'
          cases hn'
        | ok clean =>
          rw [hclean] at hn'
          cases hn'
          rw [← hsame clean hclean]
    | revoke id written =>
      refine (change_failed h).trans (forall_answer_iff fun n hn => ?_)
      constructor
      · intro hsame
        by_contra hlocal
        have hn' := hsame hn n.revoke (if_neg hlocal)
        have hrevoked := congrArg NodeRec.revoked hn'
        rw [hn] at hrevoked
        cases hrevoked
      · intro hlocal _ n' hn'
        rw [if_pos hlocal] at hn'
        cases hn'
    | rotate id secret written =>
      refine (change_failed h).trans (forall_answer_iff fun n hn => ?_)
      rw [← rotate_eq_self_iff hn]
      constructor
      · exact fun hsame => hsame hn _ rfl
      · intro hsame _ n' hn'
        cases hn'
        exact hsame

/-! ### A link approval that cannot be saved -/

private def hubNode : NodeId := ⟨js "aaaaaaaaaaaa", by decide⟩

private def webNode : NodeId := ⟨js "bbbbbbbbbbbb", by decide⟩

private def someSecret : Secret := ⟨List.replicate 64 0x61, by decide⟩

/-- A hub with its own node. -/
private def hubStore : NodeStore := ((fromFile none).ensureLocal (js "nas") hubNode someSecret 0 true).1

/-- A name that is not allowed is refused, and nothing changes. -/
theorem bad_name_refused : AsBefore hubStore (hubStore.attempt 1 (.store (.rename hubNode [] true))).1 := by
  have h : (hubStore.attempt 1 (.store (.rename hubNode [] true))).2 = .error (js "name: 1-64 printable characters") := by
    rfl
  refine (failed_asBefore_iff h).2 (Or.inr fun n _ clean hclean => ?_)
  cases hclean

/-- A node is added and the file cannot be written: the operation throws, the node is answered, and the next save, of
another node's name, writes it. -/
theorem failed_add_stays :
    let r := hubStore.attempt 1 (.store (.add (js "web") [] someSecret.1 [webNode] false))
    r.2 = .error writeError ∧ ¬ AsBefore hubStore r.1 ∧ (r.1.answer webNode).isSome = true ∧
      (((r.1.rename hubNode (js "hub") true).1.file.bind Prod.snd).any fun nodes => nodes.contains webNode) = true := by
  intro r
  have hanswer : (r.1.answer webNode).isSome = true := by decide +kernel
  refine ⟨by rfl, fun hbefore => ?_, hanswer, by decide +kernel⟩
  rw [hbefore.answer] at hanswer
  exact absurd hanswer (by decide +kernel)

end NodeStore

end Servitals
