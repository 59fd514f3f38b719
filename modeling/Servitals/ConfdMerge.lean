import Servitals.Confd
import Servitals.Checks
import Servitals.Lib.Latest

/-!
# The merge of the files of `conf.d`

What `readConfd` of `hub/lib/confd.js` makes of a directory, against what the files say: the files that are valid as a
whole, in name order, say values under paths, and the last one said under a path holds.

A node's entry is set on a plain object, where one under the name `__proto__` becomes the prototype and is no entry: the
directory is the merge of its valid files if and only if none of them has such a node (`merge_iff`).
-/

namespace Servitals

namespace Confd

open Entries (last last_nil last_append last_cons last_singleton isSome_last)

/-! ### What a file says -/

/-- The members that a file gives a group. -/
def groupOf (group : String) (m : List (JsString × Json)) : List (JsString × Json) := membersOf (Json.member m (js group))

/-- What a setting says: its value, or one for each of its members when it is merged key by key. -/
def saysSetting (e : JsString × Json) : List (List JsString × Json) :=
  if NESTED.contains e.1 then (membersOf (some e.2)).map fun n => ([e.1, n.1], n.2) else [([e.1], e.2)]

/-- The object a file holds. -/
def objectOf : Except JsString ConfdFile → Option (List (JsString × Json))
  | .ok f => match f.value with
    | .ok (.ok (.obj m)) => some m
    | _ => none
  | .error _ => none

section
variable (text : Json → Except JsString JsString)

/-- Is the file valid as a whole? -/
def isValid (f : Except JsString ConfdFile) : Bool := (readFile text f).toOption.isSome

/-- The objects of the valid files, in name order. -/
def validObjects (dir : Dir) : List (List (JsString × Json)) :=
  (jsonFiles dir).filterMap fun f => if isValid text f.2 then objectOf f.2 else none

/-- What the valid files say of settings, by path. -/
def saidSettings (dir : Dir) : List (List JsString × Json) :=
  ((validObjects text dir).flatMap (groupOf "settings")).flatMap saysSetting

def saysNode (e : JsString × Json) : List (JsString × NodeEntry) :=
  (checkNode text e.1 e.2).toOption.toList.map fun n => (e.1, n)

/-- What the valid files say of nodes, by key. -/
def saidNodes (dir : Dir) : List (JsString × NodeEntry) :=
  ((validObjects text dir).flatMap (groupOf "nodes")).flatMap (saysNode text)

end

/-- The setting at a path: the one of a name, or a member of one that is merged key by key. -/
def settingAt (out : List (JsString × Json)) : List JsString → Option Json
  | [k] => if NESTED.contains k then none else Json.member out k
  | [k, n] => if NESTED.contains k then (Json.member out k).bind fun v => v.get n else none
  | _ => none

/-- The tags, or the names, that entries have, by key. -/
def tagsOf (es : List (JsString × NodeEntry)) : List (JsString × List JsString) :=
  es.flatMap fun e => e.2.tags.toList.map fun t => (e.1, t)

def namesOf (es : List (JsString × NodeEntry)) : List (JsString × JsString) :=
  es.flatMap fun e => e.2.name.toList.map fun n => (e.1, n)

/-- How a path is named among the managed ones. -/
def dotted (p : List JsString) : JsString := (js ".").intercalate p

/-- The entry of a directory is not valid: it is not read, or it is read with an error. -/
def contributesNothing (text : Json → Except JsString JsString) (e : JsString × DirEntry) : Prop :=
  ∀ f ∈ jsonFiles (.ok [e]), isValid text f.2 = false

/-- What is read of a directory is the merge of its valid files. -/
structure IsMerge (text : Json → Except JsString JsString) (dir : Dir) : Prop where
  /-- A setting is the last one said under its path. -/
  setting : ∀ p, settingAt (readConfd text dir).settings p = last (saidSettings text dir) p
  /-- A node is there when a file has an entry for it. -/
  node : ∀ k, (readConfd text dir).nodes.contains k = true ↔ k ∈ (saidNodes text dir).map Prod.fst
  /-- It has the last tags and the last name said of it. -/
  tags : ∀ k, ((readConfd text dir).nodes.get? k).bind NodeEntry.tags = last (tagsOf (saidNodes text dir)) k
  name : ∀ k, ((readConfd text dir).nodes.get? k).bind NodeEntry.name = last (namesOf (saidNodes text dir)) k
  /-- The managed paths are those that a file says something under. -/
  managed : ∀ q, q ∈ (readConfd text dir).managed ↔ ∃ p ∈ (saidSettings text dir).map Prod.fst, q = dotted p
  /-- A file that is not valid changes nothing but the list of files. -/
  skipped : ∀ pre e post, dir = .ok (pre ++ e :: post) → contributesNothing text e →
    (readConfd text dir).settings = (readConfd text (.ok (pre ++ post))).settings ∧
      (readConfd text dir).nodes = (readConfd text (.ok (pre ++ post))).nodes ∧
      (readConfd text dir).managed = (readConfd text (.ok (pre ++ post))).managed

/-! ### Settings that pass are stored as they are -/

/-- A check that lets through what it is given, or throws. -/
def Keeps (s : Setting) : Prop := ∀ v place w, s v place = .ok w → w = v

private theorem keeps_oneOf (choices : List JsString) : Keeps (oneOf choices) := by
  intro v place w h
  unfold oneOf at h
  split at h
  · split at h <;> cases h
    rfl
  · cases h

private theorem keeps_bool : Keeps bool := by
  intro v place w h
  unfold bool at h
  split at h <;> cases h
  rfl

private theorem keeps_range (lo hi : ℕ) : Keeps (range lo hi) := by
  intro v place w h
  unfold range at h
  dsimp only at h
  split at h
  · split at h <;> cases h
    rfl
  · cases h

private theorem keeps_matching (re : JsString → Bool) (what : JsString) : Keeps (matching re what) := by
  intro v place w h
  unfold matching at h
  split at h
  · split at h <;> cases h
    rfl
  · cases h

private theorem keeps_strs (p : JsString → Bool) (what : JsString) : Keeps (strs p what) := by
  intro v place w h
  unfold strs at h
  split at h
  · split at h <;> cases h
    rfl
  · cases h

/-- Members that pass are kept, when the checks of a table keep their values. -/
private theorem members_eq {fields : List (JsString × Setting)} (hfields : ∀ f ∈ fields, Keeps f.2)
    {m ms : List (JsString × Json)} {place : JsString} (h : members fields m place = .ok ms) : ms = m := by
  unfold members at h
  cases hkeys : onlyKeys m place (fields.map Prod.fst) with
  | error e =>
    rw [hkeys] at h
    cases h
  | ok u =>
    rw [hkeys] at h
    have hall := Snapshot.mapM_eq_ok h
    clear h hkeys
    induction hall with
    | nil => rfl
    | cons hx _ ih =>
      rename_i x y xs ys _
      rw [ih]
      congr 1
      split at hx
      · rename_i f hf
        cases hcheck : f.2 x.2 (place ++ js "." ++ x.1) with
        | error e =>
          rw [hcheck] at hx
          cases hx
        | ok v =>
          rw [hcheck] at hx
          cases hx
          rw [hfields f (List.mem_of_find?_eq_some hf) _ _ _ hcheck]
      · cases hx
        rfl

private theorem keeps_table {fields : List (JsString × Setting)} (hfields : ∀ f ∈ fields, Keeps f.2) :
    Keeps (table fields) := by
  intro v place w h
  unfold table at h
  split at h
  · rename_i m
    cases hm : members fields m place with
    | error e =>
      rw [hm] at h
      cases h
    | ok ms =>
      rw [hm] at h
      cases h
      rw [members_eq hfields hm]
  · cases h

private theorem keeps_settings : ∀ f ∈ SETTINGS, Keeps f.2 := by
  have hunits : ∀ f ∈ units, Keeps f.2 := by
    simp only [units, List.forall_mem_cons, List.not_mem_nil, false_imp_iff, implies_true, and_true]
    exact ⟨keeps_oneOf _, keeps_oneOf _, keeps_oneOf _, keeps_oneOf _⟩
  have hfleet : ∀ f ∈ fleet, Keeps f.2 := by
    simp only [fleet, List.forall_mem_cons, List.not_mem_nil, false_imp_iff, implies_true, and_true]
    exact ⟨keeps_oneOf _, keeps_bool, keeps_strs _ _, keeps_strs _ _, keeps_strs _ _⟩
  have hpanels : ∀ f ∈ panels, Keeps f.2 := by
    intro f hf
    obtain ⟨p, -, rfl⟩ := List.mem_map.1 hf
    exact keeps_bool
  have hpanelSize : ∀ f ∈ panelSize, Keeps f.2 := by
    intro f hf
    obtain ⟨p, -, rfl⟩ := List.mem_map.1 hf
    exact keeps_oneOf _
  simp only [SETTINGS, List.forall_mem_cons, List.not_mem_nil, false_imp_iff, implies_true, and_true]
  exact ⟨keeps_matching _ _, keeps_range _ _, keeps_range _ _, keeps_bool, keeps_matching _ _, keeps_oneOf _, keeps_oneOf _,
    keeps_table hunits, keeps_table hfleet, keeps_table hpanels, keeps_table hpanelSize, keeps_strs _ _⟩

/-! ### One file -/

section
variable {text : Json → Except JsString JsString}

/-- What a node's entries say, when each of them passes. -/
private theorem checkNodes_eq {v : Option Json} {ns : List (JsString × NodeEntry)} (h : checkNodes text v = .ok ns) :
    ns = (membersOf v).flatMap (saysNode text) ∧ ns.map Prod.fst = (membersOf v).map Prod.fst := by
  unfold checkNodes at h
  split at h
  · cases h
    exact ⟨rfl, rfl⟩
  · rename_i m
    have hall := Snapshot.mapM_eq_ok h
    clear h
    unfold membersOf
    dsimp only
    induction hall with
    | nil => exact ⟨rfl, rfl⟩
    | cons hx _ ih =>
      rename_i x y xs ys _
      obtain ⟨hsaid, hnames⟩ := ih
      cases hcheck : checkNode text x.1 x.2 with
      | error e =>
        rw [hcheck] at hx
        cases hx
      | ok n =>
        rw [hcheck] at hx
        cases hx
        have hone : saysNode text x = [(x.1, n)] := by
          unfold saysNode
          rw [hcheck]
          rfl
        rw [List.flatMap_cons, hone, ← hsaid, List.map_cons, List.map_cons, hnames]
        exact ⟨rfl, rfl⟩
  · cases h

/-- A valid file holds an object, whose settings are stored as they are. -/
private theorem readFile_eq_ok {f : Except JsString ConfdFile} {p : Parsed} (h : readFile text f = .ok p) :
    ∃ m, objectOf f = some m ∧ p.settings = groupOf "settings" m ∧
      p.nodes = ((groupOf "nodes" m).flatMap (saysNode text)).filter (fun e => e.1 ≠ js "__proto__") ∧
      ((groupOf "nodes" m).flatMap (saysNode text)).map Prod.fst = (groupOf "nodes" m).map Prod.fst := by
  unfold readFile at h
  split at h
  · cases h
  · rename_i f
    split at h
    · cases h
    · split at h
      · cases h
      · rename_i value hvalue
        unfold parseFile at h
        split at h
        · cases h
        · rename_i m
          have hobject : objectOf (.ok f) = some m := by
            simp only [objectOf, hvalue]
          cases hkeys : onlyKeys m (js "file") [js "settings", js "nodes"] with
          | error e =>
            rw [hkeys] at h
            cases h
          | ok u =>
            rw [hkeys] at h
            cases hsettings : checkSettings (Json.member m (js "settings")) with
            | error e =>
              rw [hsettings] at h
              cases h
            | ok settings =>
              rw [hsettings] at h
              cases hnodes : checkNodes text (Json.member m (js "nodes")) with
              | error e =>
                rw [hnodes] at h
                cases h
              | ok nodes =>
                rw [hnodes] at h
                cases h
                obtain ⟨hsaid, hnames⟩ := checkNodes_eq hnodes
                refine ⟨m, hobject, ?_, congrArg (List.filter _) hsaid, hsaid ▸ hnames⟩
                unfold checkSettings at hsettings
                unfold groupOf
                split at hsettings
                · rename_i hnone
                  cases hsettings
                  rw [hnone]
                  rfl
                · rename_i ms hsome
                  rw [hsome, members_eq keeps_settings hsettings]
                  rfl
                · cases hsettings
        · cases h

/-- What one file does to the settings and the nodes: what it says when it is valid, and nothing else. -/
private theorem addFile_eq (out : Conf) (f : JsString × Except JsString ConfdFile) :
    (addFile text out f).settings = ((if isValid text f.2 then objectOf f.2 else none).toList.flatMap
        (groupOf "settings")).foldl addSetting out.settings ∧
      (addFile text out f).nodes = ((((if isValid text f.2 then objectOf f.2 else none).toList.flatMap
        (groupOf "nodes")).flatMap (saysNode text)).filter fun e => e.1 ≠ js "__proto__").foldl addNode out.nodes := by
  unfold addFile isValid
  cases hfile : readFile text f.2 with
  | error e => cases e <;> exact ⟨rfl, rfl⟩
  | ok p =>
    obtain ⟨m, hobject, hsettings, hnodes, -⟩ := readFile_eq_ok hfile
    have hvalid : (Except.ok p : Except Thrown Parsed).toOption.isSome = true := rfl
    rw [hobject, if_pos hvalid, Option.toList_some, List.flatMap_singleton, List.flatMap_singleton, ← hnodes, ← hsettings]
    exact ⟨rfl, rfl⟩

/-! ### The directory -/

/-- The settings and the nodes of a directory are those of its valid files, added one after the other. -/
private theorem readConfd_eq (dir : Dir) :
    (readConfd text dir).settings = ((validObjects text dir).flatMap (groupOf "settings")).foldl addSetting [] ∧
      (readConfd text dir).nodes =
        ((saidNodes text dir).filter fun e => e.1 ≠ js "__proto__").foldl addNode .empty := by
  have hfold : ∀ (fs : List (JsString × Except JsString ConfdFile)) (out : Conf),
      (fs.foldl (addFile text) out).settings = ((fs.filterMap fun f =>
        if isValid text f.2 then objectOf f.2 else none).flatMap (groupOf "settings")).foldl addSetting out.settings ∧
      (fs.foldl (addFile text) out).nodes = ((((fs.filterMap fun f =>
        if isValid text f.2 then objectOf f.2 else none).flatMap (groupOf "nodes")).flatMap (saysNode text)).filter
          fun e => e.1 ≠ js "__proto__").foldl addNode out.nodes := by
    intro fs
    induction fs with
    | nil => exact fun out => ⟨rfl, rfl⟩
    | cons f fs ih =>
      intro out
      obtain ⟨hsettings, hnodes⟩ := ih (addFile text out f)
      obtain ⟨hsettings', hnodes'⟩ := @addFile_eq text out f
      have hcons : ∀ fs : List (JsString × Except JsString ConfdFile), ((f :: fs).filterMap fun f =>
          if isValid text f.2 then objectOf f.2 else none) = (if isValid text f.2 then objectOf f.2 else none).toList ++
            fs.filterMap fun f => if isValid text f.2 then objectOf f.2 else none := by
        intro fs
        rw [List.filterMap_cons]
        cases (if isValid text f.2 then objectOf f.2 else none) <;> rfl
      rw [List.foldl_cons, hsettings, hnodes, hsettings', hnodes', hcons]
      simp only [List.flatMap_append, List.foldl_append, List.filter_append, and_self]
  exact hfold (jsonFiles dir) ⟨[], .empty, [], []⟩

/-! ### Settings -/

private theorem member_membersOf (v : Option Json) (k : JsString) :
    Json.member (membersOf v) k = v.bind fun v => v.get k := by
  cases v with
  | none => rfl
  | some v => cases v <;> rfl

private theorem member_spread (m n : List (JsString × Json)) (k : JsString) :
    Json.member (Json.spread m n) k = (last n k).or (Json.member m k) := by
  have hstep : ∀ (m : List (JsString × Json)) (e : JsString × Json),
      Json.member (Json.put m e.1 e.2) k = (last [e] k).or (Json.member m k) := by
    intro m e
    rw [Json.member_put, last_singleton]
    by_cases hk : e.1 = k
    · rw [if_pos hk.symm, if_pos hk]
      rfl
    · rw [if_neg (Ne.symm hk), if_neg hk]
      rfl
  have hfold := Entries.show_foldl (fun m => Json.member m k) hstep m n
  rwa [List.flatMap_singleton'] at hfold

/-- A setting is added under its paths, and nothing changes under the others. -/
private theorem settingAt_addSetting (out : List (JsString × Json)) (e : JsString × Json) (p : List JsString) :
    settingAt (addSetting out e) p = (last (saysSetting e) p).or (settingAt out p) := by
  obtain ⟨k, v⟩ := e
  unfold addSetting saysSetting
  by_cases hk : NESTED.contains k = true
  · simp only [hk, if_true]
    -- the members of a merged setting are said under paths of two names
    have hpaths : ∀ n, last ((membersOf (some v)).map fun n => ([k, n.1], n.2)) [k, n] = last (membersOf (some v)) n :=
      Entries.last_map (f := fun n => [k, n]) (fun a b h => by simpa using h) _
    have hother : ∀ p, (∀ n, p ≠ [k, n]) → last ((membersOf (some v)).map fun n => ([k, n.1], n.2)) p = none := by
      intro p hp
      refine Entries.last_eq_none ?_
      rintro hmem
      obtain ⟨e, he, rfl⟩ := List.mem_map.1 hmem
      obtain ⟨n, -, rfl⟩ := List.mem_map.1 he
      exact hp n.1 rfl
    unfold settingAt
    split
    · rename_i k'
      rw [hother _ (by simp), Option.none_or]
      split
      · rfl
      · rename_i hk'
        rw [Json.member_put, if_neg]
        rintro rfl
        exact hk' hk
    · rename_i k' n
      by_cases hkk : k' = k
      · subst hkk
        rw [hk, if_pos rfl, if_pos rfl, Json.member_put, if_pos rfl, Option.bind_some, Json.get_obj, member_spread,
          member_membersOf, hpaths]
      · rw [hother _ (by simp [hkk]), Option.none_or, Json.member_put, if_neg hkk]
    · rename_i hone htwo
      rw [hother _ fun n => htwo k n, Option.none_or]
  · simp only [hk, if_false, Bool.false_eq_true]
    have hsame : last [([k], v)] [k] = some v := (last_singleton ..).trans (if_pos rfl)
    have hother : ∀ p, p ≠ [k] → last [([k], v)] p = none := fun p hp => (last_singleton ..).trans (if_neg hp.symm)
    unfold settingAt
    split
    · rename_i k'
      by_cases hkk : k' = k
      · subst hkk
        rw [if_neg hk, if_neg hk, Json.member_put, if_pos rfl, hsame]
        rfl
      · rw [Json.member_put, if_neg hkk, hother _ (by simpa using hkk), Option.none_or]
    · rename_i k' n
      rw [hother _ (by simp), Option.none_or]
      by_cases hkk : k' = k
      · subst hkk
        rw [if_neg hk, if_neg hk]
      · rw [Json.member_put, if_neg hkk]
    · rename_i hone htwo
      rw [hother _ (hone k), Option.none_or]

private theorem settingAt_readConfd (dir : Dir) (p : List JsString) :
    settingAt (readConfd text dir).settings p = last (saidSettings text dir) p := by
  have hnone : settingAt [] p = none := by
    unfold settingAt
    split
    · split <;> rfl
    · split <;> rfl
    · rfl
  rw [(readConfd_eq dir).1, Entries.show_foldl (fun out => settingAt out p) fun out e => settingAt_addSetting out e p]
  rw [hnone, Option.or_none]
  rfl

/-! ### Nodes -/

private theorem last_tagsOf_cons (e : JsString × NodeEntry) (k : JsString) :
    last (tagsOf [e]) k = if e.1 = k then e.2.tags else none := by
  unfold tagsOf
  rw [List.flatMap_singleton]
  cases e.2.tags with
  | none => simp
  | some t => exact last_singleton ..

private theorem last_namesOf_cons (e : JsString × NodeEntry) (k : JsString) :
    last (namesOf [e]) k = if e.1 = k then e.2.name else none := by
  unfold namesOf
  rw [List.flatMap_singleton]
  cases e.2.name with
  | none => simp
  | some n => exact last_singleton ..

private theorem get?_addNode (out : OMap JsString NodeEntry) (e : JsString × NodeEntry) (k : JsString) :
    ((addNode out e).get? k).bind NodeEntry.tags = (last (tagsOf [e]) k).or ((out.get? k).bind NodeEntry.tags) ∧
      ((addNode out e).get? k).bind NodeEntry.name = (last (namesOf [e]) k).or ((out.get? k).bind NodeEntry.name) ∧
      (addNode out e).contains k = (decide (e.1 = k) || out.contains k) := by
  rw [last_tagsOf_cons, last_namesOf_cons]
  unfold addNode OMap.contains
  rw [OMap.get?_set]
  by_cases hk : e.1 = k
  · subst hk
    simp only [if_true, Option.bind_some, NodeEntry.merge, Option.isSome_some, decide_true, Bool.true_or, and_true]
    cases out.get? e.1 <;> exact ⟨rfl, rfl⟩
  · simp only [if_neg (Ne.symm hk), hk, if_false, Option.none_or, decide_false, Bool.false_or]
    exact ⟨trivial, trivial, trivial⟩

/-- The nodes that are read: those said, but for one under the name `__proto__`. -/
private theorem nodes_readConfd (dir : Dir) (k : JsString) :
    let said := (saidNodes text dir).filter fun e => e.1 ≠ js "__proto__"
    ((readConfd text dir).nodes.get? k).bind NodeEntry.tags = last (tagsOf said) k ∧
      ((readConfd text dir).nodes.get? k).bind NodeEntry.name = last (namesOf said) k ∧
      ((readConfd text dir).nodes.contains k = true ↔ k ∈ said.map Prod.fst) := by
  intro said
  have htags : ∀ es, (es.flatMap fun e => tagsOf [e]) = tagsOf es := by simp [tagsOf]
  have hnames : ∀ es, (es.flatMap fun e => namesOf [e]) = namesOf es := by simp [namesOf]
  rw [(readConfd_eq dir).2]
  refine ⟨?_, ?_, ?_⟩
  · rw [Entries.show_foldl (fun out : OMap JsString NodeEntry => (out.get? k).bind NodeEntry.tags)
      fun out e => (get?_addNode out e k).1]
    rw [OMap.get?_empty, Option.bind_none, Option.or_none, htags]
  · rw [Entries.show_foldl (fun out : OMap JsString NodeEntry => (out.get? k).bind NodeEntry.name)
      fun out e => (get?_addNode out e k).2.1]
    rw [OMap.get?_empty, Option.bind_none, Option.or_none, hnames]
  · have hfold : ∀ (es : List (JsString × NodeEntry)) (out : OMap JsString NodeEntry),
        (es.foldl addNode out).contains k = true ↔ k ∈ es.map Prod.fst ∨ out.contains k = true := by
      intro es
      induction es with
      | nil => simp
      | cons e es ih =>
        intro out
        rw [List.foldl_cons, ih, (get?_addNode out e k).2.2, List.map_cons, List.mem_cons, Bool.or_eq_true,
          decide_eq_true_eq, eq_comm (a := k)]
        tauto
    rw [hfold]
    exact or_iff_left Bool.false_ne_true

/-! ### Managed paths -/

/-- The names of the settings are distinct. -/
private theorem nodup_foldl_addSetting (es : List (JsString × Json)) {out : List (JsString × Json)}
    (h : (out.map Prod.fst).Nodup) : ((es.foldl addSetting out).map Prod.fst).Nodup := by
  induction es generalizing out with
  | nil => exact h
  | cons e es ih => exact ih (OMap.nodup_setEntries h)

private theorem dotted_singleton (k : JsString) : dotted [k] = k := by simp [dotted, List.intercalate]

private theorem dotted_pair (k n : JsString) : dotted [k, n] = k ++ js "." ++ n := by simp [dotted, List.intercalate]

/-- The managed paths of settings are those under which a setting is. -/
private theorem mem_managedOf {out : List (JsString × Json)} (h : (out.map Prod.fst).Nodup) (q : JsString) :
    q ∈ managedOf out ↔ ∃ p, (settingAt out p).isSome = true ∧ q = dotted p := by
  have hmember : ∀ k v, (k, v) ∈ out ↔ Json.member out k = some v := fun k v => OMap.mem_entries_iff (m := ⟨out, h⟩)
  unfold managedOf
  rw [List.mem_insertionSort, List.mem_flatMap]
  constructor
  · rintro ⟨⟨k, v⟩, he, hq⟩
    have hk := (hmember k v).1 he
    dsimp only at hq
    split at hq
    · rename_i hnested
      obtain ⟨n, hn, rfl⟩ := List.mem_map.1 hq
      refine ⟨[k, n.1], ?_, (dotted_pair ..).symm⟩
      have hname : n.1 ∈ (membersOf (some v)).map Prod.fst := List.mem_map_of_mem hn
      rw [settingAt, if_pos hnested, hk, ← member_membersOf, ← Option.ne_none_iff_isSome, Ne, Json.member_eq_none, not_not]
      exact hname
    · rename_i hplain
      refine ⟨[k], ?_, (List.mem_singleton.1 hq).trans (dotted_singleton k).symm⟩
      rw [settingAt, if_neg hplain, hk]
      rfl
  · rintro ⟨p, hp, rfl⟩
    unfold settingAt at hp
    split at hp
    · rename_i k
      split at hp
      · cases hp
      · rename_i hplain
        obtain ⟨v, hv⟩ := Option.isSome_iff_exists.1 hp
        refine ⟨(k, v), (hmember k v).2 hv, ?_⟩
        rw [if_neg hplain, dotted_singleton]
        exact List.mem_singleton_self k
    · rename_i k n
      split at hp
      · rename_i hnested
        cases hv : Json.member out k with
        | none =>
          rw [hv] at hp
          cases hp
        | some v =>
          rw [hv, ← member_membersOf, ← Option.ne_none_iff_isSome, Ne, Json.member_eq_none, not_not] at hp
          obtain ⟨x, hx, rfl⟩ := List.mem_map.1 hp
          refine ⟨(k, v), (hmember k v).2 hv, ?_⟩
          rw [if_pos hnested, dotted_pair]
          exact List.mem_map.2 ⟨x, hx, rfl⟩
      · cases hp
    · cases hp

private theorem mem_managed (dir : Dir) (q : JsString) :
    q ∈ (readConfd text dir).managed ↔ ∃ p ∈ (saidSettings text dir).map Prod.fst, q = dotted p := by
  have hnodup : ((readConfd text dir).settings.map Prod.fst).Nodup := by
    rw [(readConfd_eq dir).1]
    exact nodup_foldl_addSetting _ List.nodup_nil
  rw [show (readConfd text dir).managed = managedOf (readConfd text dir).settings from rfl, mem_managedOf hnodup]
  simp only [settingAt_readConfd, isSome_last]

/-! ### Files that are not valid -/

/-- Is a name of a directory read? -/
def isRead (e : JsString × DirEntry) : Bool := (js ".json").isSuffixOf e.1 && e.1.head? != some 0x2e

/-- What is read of a name. -/
def listed (e : JsString × DirEntry) : Option (JsString × Except JsString ConfdFile) :=
  match e.2 with
  | .file f => some (e.1, .ok f)
  | .failed code => some (e.1, .error code)
  | .other => none

private theorem jsonFiles_ok (names : List (JsString × DirEntry)) :
    jsonFiles (.ok names) = ((names.filter isRead).insertionSort fun a b => a.1 ≤ b.1).filterMap listed := rfl

/-- The valid object of a name. -/
def objectIn (text : Json → Except JsString JsString) (e : JsString × DirEntry) : Option (List (JsString × Json)) :=
  (listed e).bind fun f => if isValid text f.2 then objectOf f.2 else none

private theorem objectIn_eq_none {e : JsString × DirEntry} (h : contributesNothing text e) (hread : isRead e = true) :
    objectIn text e = none := by
  have hlisted : ∀ f ∈ listed e, isValid text f.2 = false := by
    intro f hf
    refine h f ?_
    rw [jsonFiles_ok, List.filter_cons_of_pos hread]
    exact List.mem_filterMap.2 ⟨e, List.mem_cons_self, hf⟩
  unfold objectIn
  cases hl : listed e with
  | none => rfl
  | some f =>
    have hinvalid := hlisted f hl
    rw [Option.bind_some, hinvalid]
    rfl

private theorem filterMap_isSome {α β : Type*} (f : α → Option β) (l : List α) :
    (l.filter fun x => (f x).isSome).filterMap f = l.filterMap f := by
  induction l with
  | nil => rfl
  | cons x l ih =>
    cases hx : f x with
    | none => rw [List.filter_cons_of_neg (by simp [hx]), ih, List.filterMap_cons_none hx]
    | some y => rw [List.filter_cons_of_pos (by simp [hx]), List.filterMap_cons_some hx, List.filterMap_cons_some hx, ih]

/-- The order of the names does not matter, and neither do those that hold no valid file. -/
private theorem validObjects_ok (names : List (JsString × DirEntry)) :
    validObjects text (.ok names) = (((names.filter isRead).filter fun e => (objectIn text e).isSome).insertionSort
      fun a b => a.1 ≤ b.1).filterMap (objectIn text) := by
  have htrans : IsTrans (JsString × DirEntry) fun a b => a.1 ≤ b.1 := ⟨fun _ _ _ hab hbc => List.le_trans hab hbc⟩
  have htotal : Std.Total fun a b : JsString × DirEntry => a.1 ≤ b.1 := ⟨fun a b => List.le_total a.1 b.1⟩
  rw [← Entries.filter_insertionSort (fun e => (objectIn text e).isSome), filterMap_isSome, validObjects, jsonFiles_ok,
    List.filterMap_filterMap]
  rfl

/-- What is not valid can be taken out of a directory: the valid objects stay. -/
private theorem validObjects_erase {pre post : List (JsString × DirEntry)} {e : JsString × DirEntry}
    (h : contributesNothing text e) :
    validObjects text (.ok (pre ++ e :: post)) = validObjects text (.ok (pre ++ post)) := by
  have hnone : ([e].filter isRead).filter (fun e => (objectIn text e).isSome) = [] := by
    by_cases hread : isRead e = true
    · rw [List.filter_cons_of_pos hread, List.filter_nil, List.filter_cons_of_neg (by simp [objectIn_eq_none h hread]),
        List.filter_nil]
    · rw [List.filter_cons_of_neg hread]
      rfl
  rw [validObjects_ok, validObjects_ok, ← List.singleton_append]
  simp only [List.filter_append, hnone, List.nil_append]

/-- The settings and the nodes that are read are those of the valid objects. -/
private theorem readConfd_congr {dir dir' : Dir} (h : validObjects text dir = validObjects text dir') :
    (readConfd text dir).settings = (readConfd text dir').settings ∧
      (readConfd text dir).nodes = (readConfd text dir').nodes ∧
      (readConfd text dir).managed = (readConfd text dir').managed := by
  have hsettings : (readConfd text dir).settings = (readConfd text dir').settings := by
    rw [(readConfd_eq dir).1, (readConfd_eq dir').1, h]
  have hnodes : (readConfd text dir).nodes = (readConfd text dir').nodes := by
    rw [(readConfd_eq dir).2, (readConfd_eq dir').2, saidNodes, saidNodes, h]
  exact ⟨hsettings, hnodes, congrArg managedOf hsettings⟩

/-! ### The merge -/

/-- The keys said of nodes are the names of the valid files' entries. -/
private theorem keys_saidNodes (dir : Dir) : (saidNodes text dir).map Prod.fst =
    ((validObjects text dir).flatMap (groupOf "nodes")).map Prod.fst := by
  have hvalid : ∀ m ∈ validObjects text dir,
      ((groupOf "nodes" m).flatMap (saysNode text)).map Prod.fst = (groupOf "nodes" m).map Prod.fst := by
    intro m hm
    obtain ⟨f, -, hf⟩ := List.mem_filterMap.1 hm
    split at hf
    · rename_i hv
      cases hfile : readFile text f.2 with
      | error e =>
        rw [isValid, hfile] at hv
        cases hv
      | ok p =>
        obtain ⟨m', hobject, -, -, hnames⟩ := readFile_eq_ok hfile
        rw [hobject] at hf
        cases hf
        exact hnames
    · cases hf
  unfold saidNodes
  rw [List.flatMap_assoc, List.map_flatMap, List.map_flatMap]
  exact List.flatMap_congr hvalid

/-- **The merge of the files.**  What is read of a directory is the merge of its valid files, in name order, with the last
value said under each path, and what is not valid changes nothing but the list of files, if and only if no valid file has
a node under the name `__proto__`. -/
theorem merge_iff (text : Json → Except JsString JsString) (dir : Dir) :
    IsMerge text dir ↔ ∀ m ∈ validObjects text dir, js "__proto__" ∉ (groupOf "nodes" m).map Prod.fst := by
  have hproto : (∀ m ∈ validObjects text dir, js "__proto__" ∉ (groupOf "nodes" m).map Prod.fst) ↔
      js "__proto__" ∉ (saidNodes text dir).map Prod.fst := by
    rw [keys_saidNodes, List.map_flatMap, List.mem_flatMap]
    simp only [not_exists, not_and]
  rw [hproto]
  constructor
  · intro hmerge hsaid
    have hthere := (hmerge.node (js "__proto__")).2 hsaid
    obtain ⟨e, he, hname⟩ := List.mem_map.1 ((nodes_readConfd dir _).2.2.1 hthere)
    have hkept := (List.mem_filter.1 he).2
    rw [decide_eq_true_eq] at hkept
    exact hkept hname
  · intro hno
    have hall : (saidNodes text dir).filter (fun e => e.1 ≠ js "__proto__") = saidNodes text dir := by
      rw [List.filter_eq_self]
      intro e he
      rw [decide_eq_true_eq]
      rintro hname
      exact hno (List.mem_map.2 ⟨e, he, hname⟩)
    have hnodes := @nodes_readConfd text dir
    simp only [hall] at hnodes
    exact {
      setting := settingAt_readConfd dir
      node := fun k => (hnodes k).2.2
      tags := fun k => (hnodes k).1
      name := fun k => (hnodes k).2.1
      managed := mem_managed dir
      skipped := fun pre e post hdir he => by
        subst hdir
        exact readConfd_congr (validObjects_erase he) }

end

/-! ### Two directories -/

/-- A string as it is turned into a text; nothing else is, below. -/
private def plainText : Json → Except JsString JsString
  | .str s => .ok s
  | _ => .error (js "cannot convert")

/-- A valid file with nodes. -/
private def ofNodes (nodes : List (JsString × Json)) : DirEntry :=
  .file ⟨100, .ok (.ok (.obj [(js "nodes", .obj nodes)]))⟩

private def taggedAs (tag : String) : Json := .obj [(js "tags", .arr [.str (js tag)])]

/-- Two files, and between them one with a tag that is none. -/
private def tidy : Dir := .ok [
  (js "20.json", ofNodes [(js "nas", taggedAs "attic")]), (js "10.json", ofNodes [(js "nas", taggedAs "home")]),
  (js "15.json", ofNodes [(js "nas", taggedAs "No")])]

private def hidden : Dir := .ok [(js "10.json", ofNodes [(js "nas", taggedAs "home"), (js "__proto__", taggedAs "home")])]

theorem tidy_merged : IsMerge plainText tidy :=
  (merge_iff plainText tidy).2 (by decide +kernel)

/-- A node named `__proto__` in a valid file is lost, and the file is said to be right. -/
theorem proto_node_lost :
    (readConfd plainText hidden).files = [(js "10.json", none)] ∧
      js "__proto__" ∈ (saidNodes plainText hidden).map Prod.fst ∧
      (readConfd plainText hidden).nodes.contains (js "__proto__") = false ∧ ¬ IsMerge plainText hidden := by
  have hsaid : js "__proto__" ∈ (saidNodes plainText hidden).map Prod.fst := by decide +kernel
  have hlost : (readConfd plainText hidden).nodes.contains (js "__proto__") = false := by decide +kernel
  refine ⟨rfl, hsaid, hlost, fun hmerge => ?_⟩
  have hthere := (hmerge.node (js "__proto__")).2 hsaid
  rw [hlost] at hthere
  cases hthere

end Confd

end Servitals
