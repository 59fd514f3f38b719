import Servitals.Checks
import Servitals.Confd

/-!
# Settings managed by a file

The settings of the page are one object in `config.json`.  `GET /config.json` shows it with what `conf.d` sets on top;
`POST /__ctl/config` saves what the page posts, with the saved values put back at the managed paths, so that a file that
goes away brings them back.
-/

namespace Servitals

namespace Confd

/-! ### Saving -/

/-- `v && …` -/
def truthy : Json → Bool
  | .null => false
  | .bool b => b
  | .num x => x != some 0
  | .str s => s != []
  | _ => true

/-- `/^data:image\/[a-z.+-]+;base64,[A-Za-z0-9+/=]+$/` -/
def isFavicon (s : JsString) : Bool :=
  let isType (u : UInt16) := unitIn 'a' 'z' u || (js ".+-").contains u
  let isData (u : UInt16) := unitIn 'A' 'Z' u || unitIn 'a' 'z' u || unitIn '0' '9' u || (js "+/=").contains u
  let rest := s.drop (js "data:image/").length
  let data := (rest.dropWhile isType).drop (js ";base64,").length
  (js "data:image/").isPrefixOf s && rest.head?.any isType && (js ";base64,").isPrefixOf (rest.dropWhile isType) &&
    data != [] && data.all isData

/-- `/^https?:\/\/[^\s"'<>]+$/i` -/
def isPortainerUrl (s : JsString) : Bool :=
  [js "http://", js "https://"].any fun scheme =>
    let rest := s.drop scheme.length
    scheme.isPrefixOf (lower s) && rest != [] && rest.all fun u => !isSpace u && !(js "\"'<>").contains u

/-- A refused request: its status and error. -/
abbrev Refusal := ℕ × JsString

section
variable (text : Json → Except JsString JsString)

/-- `obj.k && !re.test(obj.k)` -/
def fails (re : JsString → Bool) (v : Option Json) : Except Refusal Bool :=
  match v with
  | none => .ok false
  | some (.str s) => .ok (s != [] && !re s)
  | some v =>
    if truthy v then match text v with
      | .ok s => .ok (!re s)
      | .error _ => .error (500, js "internal error")
    else .ok false

/-- The saved value is put back at one managed path, or taken out. -/
def restore (before : Json) (obj : List (JsString × Json)) (path : List JsString) : List (JsString × Json) :=
  match path with
  | [] => obj
  | [k] => match before.get k with
    | some v => Json.put obj k v
    | none => Json.remove obj k
  | k :: sub :: _ => match Json.member obj k with
    | some (.obj m) => match (before.get k).bind fun w => w.get sub with
      | some v => Json.put obj k (.obj (Json.put m sub v))
      | none => Json.put obj k (.obj (Json.remove m sub))
    -- a member set on a list is not written, and nothing else takes one
    | _ => obj

/-- `p.split(".")` for each managed path. -/
def pathsOf (managed : List JsString) : List (List JsString) := managed.map (split 0x2e)

/-- `JSON.parse(…) || {}`, `{}` without a file that parses. -/
def savedBefore (file : Option Json) : Json := (file.filter truthy).getD (.obj [])

/-- `POST /__ctl/config`: what `config.json` holds after it.  `body` is what the posted text parses to; `written` says
whether the file could be written. -/
def saveConfig (managed : List JsString) (file body : Option Json) (written : Bool) : Except Refusal Json :=
  match body with
  | none => .error (400, js "invalid json")
  | some (.obj posted) => do
    let obj := (pathsOf managed).foldl (restore (savedBefore file)) (Json.remove posted (js "_managed"))
    if ← fails text isFavicon (Json.member obj (js "favicon")) then
      .error (400, js "favicon must be a base64 data:image URI")
    if ← fails text isPortainerUrl (Json.member obj (js "portainerUrl")) then
      .error (400, js "portainerUrl must be an http(s) URL")
    if written then .ok (Json.obj obj).written else .error (500, js "EIO")
  | some _ => .error (400, js "not an object")

end

/-! ### Showing -/

/-- A setting of the files over the page's own. -/
def showSetting (out : List (JsString × Json)) (e : JsString × Json) : List (JsString × Json) :=
  Json.put out e.1 (match e.2, Json.member out e.1 with
    | .obj v, some (.obj m) => .obj (Json.spread m v)
    | v, _ => v)

/-- `GET /config.json` -/
def configJson (c : Conf) (file : Option Json) : Json :=
  let out := c.settings.foldl showSetting (membersOf file)
  .obj (Json.put out (js "_managed") (.arr (c.managed.map Json.str)))

/-! ### The paths that files manage -/

/-- A managed path: a setting, or a member of one that is merged key by key. -/
def IsManaged (p : List JsString) : Prop :=
  (∃ k, p = [k] ∧ k ∉ NESTED ∧ k ≠ js "_managed") ∨ ∃ k sub, p = [k, sub] ∧ k ∈ NESTED

/-- A setting with a name of `SETTINGS`; a merged one is an object whose members have no dots in their names. -/
def IsSetting (e : JsString × Json) : Prop :=
  e.1 ∈ SETTINGS.map Prod.fst ∧ (e.1 ∈ NESTED → ∃ m, e.2 = .obj m ∧ ∀ n ∈ m, (0x2e : UInt16) ∉ n.1)

private theorem onlyKeys_eq_ok {m : List (JsString × Json)} {place : JsString} {allowed : List JsString}
    (h : onlyKeys m place allowed = .ok ()) : ∀ e ∈ m, e.1 ∈ allowed := by
  unfold onlyKeys at h
  split at h
  · cases h
  · rename_i hnone
    intro e he
    simpa using List.find?_eq_none.1 hnone e he

/-- What a check of members lets through: a value for each of some of the names, as the name's check gives it. -/
private theorem of_members_eq_ok {fields : List (JsString × Setting)} {m ms : List (JsString × Json)} {place : JsString}
    (h : members fields m place = .ok ms) :
    ∀ e ∈ ms, ∃ f ∈ fields, f.1 = e.1 ∧ ∃ v where_, f.2 v where_ = .ok e.2 := by
  unfold members at h
  cases hkeys : onlyKeys m place (fields.map Prod.fst) with
  | error e =>
    rw [hkeys] at h
    cases h
  | ok u =>
    rw [hkeys] at h
    intro e he
    obtain ⟨x, hx, hxe⟩ := (Snapshot.of_mapM_eq_ok h).2 e he
    have hmem := onlyKeys_eq_ok hkeys x hx
    split at hxe
    · rename_i f hf
      have hfield := List.mem_of_find?_eq_some hf
      have hname : f.1 = x.1 := by simpa using List.find?_some hf
      cases hcheck : f.2 x.2 (place ++ js "." ++ x.1) with
      | error e' =>
        rw [hcheck] at hxe
        cases hxe
      | ok v =>
        rw [hcheck] at hxe
        cases hxe
        exact ⟨f, hfield, hname, _, _, hcheck⟩
    · rename_i hnone
      obtain ⟨f, hf, hname⟩ := List.mem_map.1 hmem
      exact absurd (decide_eq_true hname) (List.find?_eq_none.1 hnone f hf)

/-- The members of a table have the names of the table. -/
private theorem of_table_eq_ok {fields : List (JsString × Setting)} {v w : Json} {place : JsString}
    (h : table fields v place = .ok w) : ∃ m, w = .obj m ∧ ∀ n ∈ m, n.1 ∈ fields.map Prod.fst := by
  unfold table at h
  split at h
  · rename_i m
    cases hm : members fields m place with
    | error e =>
      rw [hm] at h
      cases h
    | ok ms =>
      rw [hm] at h
      cases h
      refine ⟨ms, rfl, fun n hn => ?_⟩
      obtain ⟨f, hf, hname, -⟩ := of_members_eq_ok hm n hn
      exact List.mem_map.2 ⟨f, hf, hname⟩
  · cases h

/-- The settings of a file. -/
private theorem isSetting_of_members {m ms : List (JsString × Json)} {place : JsString}
    (h : members SETTINGS m place = .ok ms) : ∀ e ∈ ms, IsSetting e := by
  intro e he
  obtain ⟨f, hf, hname, v, where_, hcheck⟩ := of_members_eq_ok h e he
  refine ⟨List.mem_map.2 ⟨f, hf, hname⟩, fun hnested => ?_⟩
  rw [← hname] at hnested
  have htable : ∃ fields : List (JsString × Setting), f.2 = table fields ∧ ∀ k ∈ fields.map Prod.fst, (0x2e : UInt16) ∉ k := by
    simp only [SETTINGS, List.mem_cons, List.not_mem_nil, or_false] at hf
    rcases hf with rfl | rfl | rfl | rfl | rfl | rfl | rfl | rfl | rfl | rfl | rfl | rfl
    all_goals first
      | exact absurd hnested (by decide)
      | exact ⟨_, rfl, by decide⟩
  obtain ⟨fields, hf2, hdots⟩ := htable
  rw [hf2] at hcheck
  obtain ⟨m, hm, hnames⟩ := of_table_eq_ok hcheck
  exact ⟨m, hm, fun n hn => hdots n.1 (hnames n hn)⟩

private theorem mem_put {m : List (JsString × Json)} {k : JsString} {v : Json} {e : JsString × Json}
    (h : e ∈ Json.put m k v) :
    e = (k, v) ∨ e ∈ m := by
  unfold Json.put at h
  induction m with
  | nil => simpa [OMap.setEntries] using h
  | cons x m ih =>
    unfold OMap.setEntries at h
    split at h
    · rcases List.mem_cons.1 h with h | h
      · exact Or.inl h
      · exact Or.inr (List.mem_cons_of_mem _ h)
    · rcases List.mem_cons.1 h with h | h
      · exact Or.inr (h ▸ List.mem_cons_self)
      · exact (ih h).imp_right (List.mem_cons_of_mem _)

private theorem mem_spread {m n : List (JsString × Json)} {e : JsString × Json} (h : e ∈ Json.spread m n) :
    e ∈ n ∨ e ∈ m := by
  unfold Json.spread at h
  induction n generalizing m with
  | nil => exact Or.inr h
  | cons x n ih =>
    rcases ih h with h | h
    · exact Or.inl (List.mem_cons_of_mem _ h)
    · rcases mem_put h with rfl | h
      · exact Or.inl List.mem_cons_self
      · exact Or.inr h

private theorem isSetting_addSetting {out : List (JsString × Json)} {e : JsString × Json}
    (hout : ∀ x ∈ out, IsSetting x)
    (he : IsSetting e) : ∀ x ∈ addSetting out e, IsSetting x := by
  intro x hx
  unfold addSetting at hx
  rcases mem_put hx with rfl | hx
  · refine ⟨he.1, fun hnested => ⟨_, if_pos (List.contains_iff_mem.2 hnested), fun n hn => ?_⟩⟩
    obtain ⟨m, hm, hdots⟩ := he.2 hnested
    rcases mem_spread hn with hn | hn
    · rw [hm] at hn
      exact hdots n hn
    · cases hmember : Json.member out e.1 with
      | none =>
        rw [hmember] at hn
        cases hn
      | some v =>
        rw [hmember] at hn
        obtain ⟨y, hy, rfl⟩ := Option.map_eq_some_iff.1 hmember
        have hname : y.1 = e.1 := by simpa using List.find?_some hy
        obtain ⟨m', hm', hdots'⟩ := (hout y (List.mem_of_find?_eq_some hy)).2 (hname ▸ hnested)
        rw [hm'] at hn
        exact hdots' n hn
  · exact hout x hx

private theorem isSetting_parseFile {text : Json → Except JsString JsString} {value : Except JsString Json} {p : Parsed}
    (h : parseFile text value = .ok p) : ∀ e ∈ p.settings, IsSetting e := by
  unfold parseFile at h
  split at h
  · cases h
  · rename_i m
    cases hkeys : onlyKeys m (js "file") [js "settings", js "nodes"] with
    | error e =>
      rw [hkeys] at h
      cases h
    | ok u =>
      rw [hkeys] at h
      cases hsettings : checkSettings (Json.member m (js "settings")) with
      | error e =>
        rw [hsettings] at h
        cases h
      | ok settings =>
        rw [hsettings] at h
        cases hnodes : checkNodes text (Json.member m (js "nodes")) with
        | error e =>
          rw [hnodes] at h
          cases h
        | ok nodes =>
          rw [hnodes] at h
          cases h
          unfold checkSettings at hsettings
          split at hsettings
          · cases hsettings
            exact fun e he => absurd he List.not_mem_nil
          · exact isSetting_of_members hsettings
          · cases hsettings
  · cases h

private theorem isSetting_addFile {text : Json → Except JsString JsString} {out : Conf}
    (hout : ∀ e ∈ out.settings, IsSetting e)
    (f : JsString × Except JsString ConfdFile) : ∀ e ∈ (addFile text out f).settings, IsSetting e := by
  unfold addFile
  split
  · rename_i p hp
    have hfile : ∀ e ∈ p.settings, IsSetting e := by
      unfold readFile at hp
      split at hp
      · cases hp
      · split at hp
        · cases hp
        · split at hp
          · cases hp
          · exact isSetting_parseFile hp
    have hfold : ∀ es out : List (JsString × Json), (∀ e ∈ es, IsSetting e) → (∀ e ∈ out, IsSetting e) →
        ∀ e ∈ es.foldl addSetting out, IsSetting e := by
      intro es
      induction es with
      | nil => exact fun _ _ hout => hout
      | cons e es ih =>
        exact fun out hes hout => ih _ (fun x hx => hes x (List.mem_cons_of_mem _ hx))
          (isSetting_addSetting hout (hes e List.mem_cons_self))
    exact hfold _ _ hfile hout
  · exact hout
  · exact hout

private theorem isSetting_readConfd (text : Json → Except JsString JsString) (dir : Dir) :
    ∀ e ∈ (readConfd text dir).settings, IsSetting e := by
  have hfold : ∀ (fs : List (JsString × Except JsString ConfdFile)) (out : Conf), (∀ e ∈ out.settings, IsSetting e) →
      ∀ e ∈ (fs.foldl (addFile text) out).settings, IsSetting e := by
    intro fs
    induction fs with
    | nil => exact fun _ hout => hout
    | cons f fs ih => exact fun out hout => ih _ (isSetting_addFile hout f)
  exact hfold (jsonFiles dir) ⟨[], .empty, [], []⟩ fun e he => absurd he List.not_mem_nil

private theorem setting_names : ∀ k ∈ SETTINGS.map Prod.fst, (0x2e : UInt16) ∉ k ∧ k ≠ js "_managed" := by decide

private theorem split_path {k sub : JsString} (hk : (0x2e : UInt16) ∉ k) (hsub : (0x2e : UInt16) ∉ sub) :
    split 0x2e (k ++ js "." ++ sub) = [k, sub] := by
  rw [show k ++ js "." ++ sub = k ++ 0x2e :: sub by simp [js, utf16], split_append_cons hk, split_of_notMem hsub]

/-- The paths that the files of a directory manage are those of the settings they set. -/
private theorem mem_paths_iff {text : Json → Except JsString JsString} {dir : Dir} {p : List JsString} :
    p ∈ pathsOf (readConfd text dir).managed ↔ ∃ e ∈ (readConfd text dir).settings,
      (e.1 ∉ NESTED ∧ p = [e.1]) ∨ (e.1 ∈ NESTED ∧ ∃ n ∈ membersOf (some e.2), p = [e.1, n.1]) := by
  have hmanaged : (readConfd text dir).managed = managedOf (readConfd text dir).settings := rfl
  rw [hmanaged, pathsOf, managedOf]
  simp only [List.mem_map, List.mem_insertionSort, List.mem_flatMap]
  constructor
  · rintro ⟨s, ⟨e, he, hs⟩, rfl⟩
    obtain ⟨hname, hnested⟩ := isSetting_readConfd text dir e he
    refine ⟨e, he, ?_⟩
    split at hs
    · rename_i hmem
      obtain ⟨n, hn, rfl⟩ := List.mem_map.1 hs
      have hmem := List.contains_iff_mem.1 hmem
      obtain ⟨m, hm, hdots⟩ := hnested hmem
      rw [hm] at hn ⊢
      exact Or.inr ⟨hmem, n, hn, split_path (setting_names _ hname).1 (hdots n hn)⟩
    · rename_i hmem
      rw [List.mem_singleton.1 hs]
      exact Or.inl ⟨fun hm => hmem (List.contains_iff_mem.2 hm), split_of_notMem (setting_names _ hname).1⟩
  · rintro ⟨e, he, hp⟩
    obtain ⟨hname, hnested⟩ := isSetting_readConfd text dir e he
    rcases hp with ⟨hmem, rfl⟩ | ⟨hmem, n, hn, rfl⟩
    · refine ⟨e.1, ⟨e, he, ?_⟩, split_of_notMem (setting_names _ hname).1⟩
      rw [if_neg fun hm => hmem (List.contains_iff_mem.1 hm)]
      exact List.mem_singleton_self _
    · obtain ⟨m, hm, hdots⟩ := hnested hmem
      refine ⟨e.1 ++ js "." ++ n.1, ⟨e, he, ?_⟩, ?_⟩
      · rw [if_pos (List.contains_iff_mem.2 hmem)]
        exact List.mem_map.2 ⟨n, hn, rfl⟩
      · rw [hm] at hn
        exact split_path (setting_names _ hname).1 (hdots n hn)

private theorem isManaged_of_readConfd {text : Json → Except JsString JsString} {dir : Dir} {p : List JsString}
    (h : p ∈ pathsOf (readConfd text dir).managed) : IsManaged p := by
  obtain ⟨e, he, hp⟩ := mem_paths_iff.1 h
  have hname := (setting_names _ (isSetting_readConfd text dir e he).1).2
  rcases hp with ⟨hmem, rfl⟩ | ⟨hmem, n, -, rfl⟩
  · exact Or.inl ⟨e.1, rfl, hmem, hname⟩
  · exact Or.inr ⟨e.1, n.1, rfl, hmem⟩

/-! ### Putting saved values back -/

variable {before : Json} {obj : List (JsString × Json)} {k sub x : JsString}

/-- A member is changed by the paths under its name only. -/
private theorem member_restore_of_ne {p : List JsString} (hp : p.head? ≠ some x) :
    Json.member (restore before obj p) x = Json.member obj x := by
  unfold restore
  split
  · rfl
  · rename_i k
    have hne : x ≠ k := fun h => hp (congrArg some h.symm)
    split
    · rw [Json.member_put, if_neg hne]
    · rw [Json.member_remove, if_neg hne]
  · rename_i k sub rest
    have hne : x ≠ k := fun h => hp (congrArg some h.symm)
    split
    · split <;> rw [Json.member_put, if_neg hne]
    · rfl

private theorem member_restore_top : Json.member (restore before obj [k]) k = before.get k := by
  unfold restore
  dsimp only
  split
  · rename_i v hv
    rw [Json.member_put, if_pos rfl, hv]
  · rename_i hv
    rw [Json.member_remove, if_pos rfl, hv]

private theorem member_restore_group {m : List (JsString × Json)} (hm : Json.member obj k = some (.obj m)) :
    ∃ m', Json.member (restore before obj [k, sub]) k = some (.obj m') ∧
      ∀ s, Json.member m' s = if s = sub then (before.get k).bind fun w => w.get sub else Json.member m s := by
  unfold restore
  dsimp only
  rw [hm]
  dsimp only
  split
  · rename_i v hv
    refine ⟨_, by rw [Json.member_put, if_pos rfl], fun s => ?_⟩
    rw [Json.member_put, hv]
  · rename_i hv
    refine ⟨_, by rw [Json.member_put, if_pos rfl], fun s => ?_⟩
    rw [Json.member_remove, hv]

private theorem restore_of_not_group (hno : ∀ m, Json.member obj k ≠ some (.obj m)) :
    restore before obj [k, sub] = obj := by
  unfold restore
  dsimp only
  split
  · rename_i m hm
    exact absurd hm (hno m)
  · rfl

/-- All managed paths: a setting of its own is as it was saved; a group that was posted has its managed members as they
were saved, and the others as posted; anything else is as posted. -/
private theorem member_foldl_restore {ps : List (List JsString)} (hps : ∀ p ∈ ps, IsManaged p) (before : Json)
    (obj : List (JsString × Json)) (x : JsString) :
    ([x] ∈ ps → Json.member (ps.foldl (restore before) obj) x = before.get x) ∧
    ([x] ∉ ps → (∀ m, Json.member obj x = some (.obj m) → ∃ m',
      Json.member (ps.foldl (restore before) obj) x = some (.obj m') ∧
      ∀ s, Json.member m' s = if [x, s] ∈ ps then (before.get x).bind fun w => w.get s else Json.member m s) ∧
    (((∀ m, Json.member obj x ≠ some (.obj m)) ∨ ∀ s, [x, s] ∉ ps) →
      Json.member (ps.foldl (restore before) obj) x = Json.member obj x)) := by
  induction ps using List.reverseRecOn with
  | nil => exact ⟨fun h => absurd h List.not_mem_nil, fun _ => ⟨fun m hm => ⟨m, hm, fun s => by simp⟩, fun _ => rfl⟩⟩
  | append_singleton ps p ih =>
    obtain ⟨htop, hrest⟩ := ih fun p hp => hps p (List.mem_append_left _ hp)
    simp only [List.foldl_append, List.foldl_cons, List.foldl_nil, List.mem_append, List.mem_singleton]
    by_cases hhead : p.head? = some x
    · rcases hps p (by simp) with ⟨k, rfl, -, -⟩ | ⟨k, sub, rfl, hnested⟩
      · obtain rfl : k = x := Option.some.inj hhead
        exact ⟨fun _ => member_restore_top, fun hno => absurd (Or.inr rfl) hno⟩
      · obtain rfl : k = x := Option.some.inj hhead
        have hno : [k] ∉ ps := by
          intro hmem
          rcases hps [k] (List.mem_append_left _ hmem) with ⟨k', hk, hnot, -⟩ | ⟨k', sub', hk, -⟩
          · obtain rfl := (List.cons.inj hk).1
            exact hnot hnested
          · cases hk
        obtain ⟨hgroup, hother⟩ := hrest hno
        refine ⟨fun h => ?_, fun _ => ⟨fun m hm => ?_, fun h => ?_⟩⟩
        · rcases h with h | h
          · exact absurd h hno
          · cases h
        · obtain ⟨m₁, hm₁, hs₁⟩ := hgroup m hm
          obtain ⟨m₂, hm₂, hs₂⟩ := @member_restore_group before _ k sub _ hm₁
          refine ⟨m₂, hm₂, fun s => ?_⟩
          rw [hs₂, hs₁]
          by_cases hs : s = sub
          · rw [if_pos hs, if_pos (Or.inr (by rw [hs])), hs]
          · have hne : [k, s] ≠ [k, sub] := fun h => hs (List.cons.inj (List.cons.inj h).2).1
            rw [if_neg hs]
            simp only [hne, or_false]
        · rcases h with h | h
          · have hsame := hother (Or.inl h)
            rw [restore_of_not_group (by rw [hsame]; exact h), hsame]
          · exact absurd (Or.inr rfl) (h sub)
    · have hmember : Json.member (restore before (ps.foldl (restore before) obj) p) x =
          Json.member (ps.foldl (restore before) obj) x := member_restore_of_ne hhead
      have hx : [x] ≠ p := fun h => hhead (h ▸ rfl)
      have hxs : ∀ s, [x, s] ≠ p := fun s h => hhead (h ▸ rfl)
      simp only [hmember, hx, hxs, or_false]
      exact ⟨htop, hrest⟩

/-! ### What a save keeps -/

/-- What the file held at a path. -/
def fileAt (file : Option Json) (p : List JsString) : Option Json := file.bind fun v => v.atPath p

/-- Neither managed, nor inside or around a managed path. -/
def Outside (paths : List (List JsString)) (q : List JsString) : Prop := ∀ p ∈ paths, ¬ p <+: q ∧ ¬ q <+: p

/-- The saved file holds at each managed path what it held before, and shows it when no file manages the path any more;
at every other path it holds what was posted. -/
structure Kept (text : Json → Except JsString JsString) (paths : List (List JsString)) (file : Option Json)
    (posted saved : Json) : Prop where
  managed : ∀ p ∈ paths, saved.atPath p = fileAt file p
  back : ∀ dir, ∀ p ∈ paths, p ∉ pathsOf (readConfd text dir).managed →
    (configJson (readConfd text dir) (some saved)).atPath p = fileAt file p
  others : ∀ q, Outside paths q → saved.atPath q = posted.atPath q

/-- What is posted has the groups of the saved values under managed paths; neither it nor these values hold an infinite
number; and it has no `_managed`. -/
structure Restorable (paths : List (List JsString)) (file : Option Json) (posted : Json) : Prop where
  grouped : ∀ k sub, [k, sub] ∈ paths → fileAt file [k, sub] ≠ none → (posted.get k).any Json.isObj = true
  finite_before : ∀ p ∈ paths, ∀ v, fileAt file p = some v → v.finite = true
  finite_posted : ∀ q, Outside paths q → ∀ v, posted.atPath q = some v → v.finite = true
  unlisted : posted.get (js "_managed") = none

private theorem get_savedBefore (file : Option Json) (k : JsString) :
    (savedBefore file).get k = file.bind fun v => v.get k := by
  unfold savedBefore
  cases file with
  | none => rfl
  | some v =>
    cases hv : truthy v with
    | true => rw [Option.filter_some, if_pos hv]; rfl
    | false =>
      have habsent : v.get k = none := by
        apply Json.get_of_ne_obj
        rintro m rfl
        cases hv
      rw [Option.filter_some, if_neg (by rw [hv]; exact Bool.noConfusion), Option.bind_some, habsent]
      rfl

private theorem fileAt_top (file : Option Json) (k : JsString) : fileAt file [k] = (savedBefore file).get k := by
  rw [get_savedBefore]
  cases file with
  | none => rfl
  | some v => simp [fileAt, Json.atPath]

private theorem fileAt_nested (file : Option Json) (k sub : JsString) :
    fileAt file [k, sub] = ((savedBefore file).get k).bind fun w => w.get sub := by
  rw [get_savedBefore]
  cases file with
  | none => rfl
  | some v => simp [fileAt, Json.atPath]

/-- An accepted save. -/
private theorem saveConfig_eq_ok {text : Json → Except JsString JsString} {managed : List JsString} {file : Option Json}
    {posted saved : Json} {written : Bool} (h : saveConfig text managed file (some posted) written = .ok saved) :
    ∃ m, posted = .obj m ∧ saved =
      (Json.obj ((pathsOf managed).foldl (restore (savedBefore file)) (Json.remove m (js "_managed")))).written := by
  unfold saveConfig at h
  split at h
  · cases h
  · rename_i m hbody
    cases hbody
    refine ⟨m, rfl, ?_⟩
    cases hfavicon : fails text isFavicon (Json.member
        ((pathsOf managed).foldl (restore (savedBefore file)) (Json.remove m (js "_managed"))) (js "favicon")) with
    | error e =>
      simp only [hfavicon] at h
      cases h
    | ok b =>
      simp only [hfavicon] at h
      cases b with
      | true => cases h
      | false =>
        cases hurl : fails text isPortainerUrl (Json.member
            ((pathsOf managed).foldl (restore (savedBefore file)) (Json.remove m (js "_managed"))) (js "portainerUrl")) with
        | error e =>
          simp only [hurl] at h
          cases h
        | ok b =>
          simp only [hurl] at h
          cases b with
          | true => cases h
          | false =>
            cases written with
            | true =>
              cases h
              rfl
            | false => cases h
  · cases h

section
variable {paths : List (List JsString)} {file : Option Json} {m : List (JsString × Json)}

/-- What a save writes, before it is a text. -/
private def restored (paths : List (List JsString)) (file : Option Json) (m : List (JsString × Json)) : Json :=
  .obj (paths.foldl (restore (savedBefore file)) (Json.remove m (js "_managed")))

private theorem top_notMem (hpaths : ∀ p ∈ paths, IsManaged p) {k sub : JsString} (h : [k, sub] ∈ paths) :
    [k] ∉ paths := by
  intro hk
  rcases hpaths _ h with ⟨k', he, -⟩ | ⟨k', sub', he, hnested⟩
  · cases he
  · obtain rfl := (List.cons.inj he).1
    rcases hpaths _ hk with ⟨k', he, hnot, -⟩ | ⟨k', sub', he, -⟩
    · obtain rfl := (List.cons.inj he).1
      exact hnot hnested
    · cases he

private theorem head_ne (hpaths : ∀ p ∈ paths, IsManaged p) {p : List JsString} (hp : p ∈ paths) :
    ∃ k rest, p = k :: rest ∧ k ≠ js "_managed" := by
  rcases hpaths p hp with ⟨k, rfl, -, hk⟩ | ⟨k, sub, rfl, hk⟩
  · exact ⟨k, [], rfl, hk⟩
  · refine ⟨k, [sub], rfl, ?_⟩
    rintro rfl
    exact absurd hk (by decide)

/-- Nothing is inside a value that is no object. -/
private theorem atPath_of_ne_obj {o : Option Json} {sub : JsString} (h : ∀ m, o ≠ some (.obj m)) :
    (o.bind fun w => w.atPath [sub]) = none := by
  cases o with
  | none => rfl
  | some v =>
    rw [Option.bind_some, Json.atPath, Json.get_of_ne_obj]
    · rfl
    · rintro m rfl
      exact h m rfl

/-- At a managed path there is what was saved, if the group it needs was posted. -/
private theorem restored_managed (hpaths : ∀ p ∈ paths, IsManaged p)
    (hgrouped : ∀ k sub, [k, sub] ∈ paths → fileAt file [k, sub] ≠ none → (Json.member m k).any Json.isObj = true)
    {p : List JsString} (hp : p ∈ paths) : (restored paths file m).atPath p = fileAt file p := by
  have hspec := member_foldl_restore hpaths (savedBefore file) (Json.remove m (js "_managed"))
  obtain ⟨k, rest, hhead, hk⟩ := head_ne hpaths hp
  have hremove : Json.member (Json.remove m (js "_managed")) k = Json.member m k := by rw [Json.member_remove, if_neg hk]
  rcases hpaths p hp with ⟨k', rfl, -⟩ | ⟨k', sub, rfl, -⟩
  · obtain rfl := (List.cons.inj hhead).1
    have hget : (restored paths file m).get k' = (savedBefore file).get k' := (hspec k').1 hp
    rw [fileAt_top, Json.atPath, hget]
    cases (savedBefore file).get k' <;> rfl
  · obtain rfl := (List.cons.inj hhead).1
    obtain ⟨hgroup, hother⟩ := (hspec k').2 (top_notMem hpaths hp)
    rw [hremove] at hgroup hother
    rw [Json.atPath]
    by_cases hobj : ∃ m', Json.member m k' = some (.obj m')
    · obtain ⟨m', hm'⟩ := hobj
      obtain ⟨m'', hm'', hsub⟩ := hgroup m' hm'
      have hget : (restored paths file m).get k' = some (.obj m'') := hm''
      rw [hget, Option.bind_some, Json.atPath, Json.get_obj, hsub, if_pos hp, ← fileAt_nested]
      cases fileAt file [k', sub] <;> rfl
    · have hno : ∀ m', Json.member m k' ≠ some (.obj m') := fun m' h => hobj ⟨m', h⟩
      have hget : (restored paths file m).get k' = Json.member m k' := hother (Or.inl hno)
      have habsent : fileAt file [k', sub] = none := by
        by_contra hsome
        obtain ⟨v, hv, hisObj⟩ := (Option.any_eq_true _ _).1 (hgrouped k' sub hp hsome)
        obtain ⟨m', rfl⟩ := Json.exists_of_isObj hisObj
        exact hno m' hv
      rw [hget, habsent]
      exact atPath_of_ne_obj hno

/-- Outside the managed paths there is what was posted. -/
private theorem restored_outside (hpaths : ∀ p ∈ paths, IsManaged p) (hunlisted : Json.member m (js "_managed") = none)
    {q : List JsString} (hq : Outside paths q) : (restored paths file m).atPath q = (Json.obj m).atPath q := by
  have hspec := member_foldl_restore hpaths (savedBefore file) (Json.remove m (js "_managed"))
  have hremove : Json.remove m (js "_managed") = m := by
    refine List.filter_eq_self.2 fun e he => decide_eq_true fun hk => ?_
    exact Json.member_eq_none.1 hunlisted (List.mem_map.2 ⟨e, he, hk⟩)
  have hmember : ∀ x, Json.member (Json.remove m (js "_managed")) x = Json.member m x := fun x => by rw [hremove]
  cases q with
  | nil =>
    have hnone : paths = [] := by
      cases paths with
      | nil => rfl
      | cons p ps => exact absurd List.nil_prefix (hq p List.mem_cons_self).2
    subst hnone
    rw [restored, hremove]
    rfl
  | cons k q =>
    have htop : [k] ∉ paths := fun h => (hq _ h).1 (List.cons_prefix_cons.2 ⟨rfl, List.nil_prefix⟩)
    obtain ⟨hgroup, hother⟩ := (hspec k).2 htop
    rw [hmember] at hgroup hother
    rw [Json.atPath, Json.atPath, Json.get_obj]
    by_cases hobj : ∃ m', Json.member m k = some (.obj m')
    · obtain ⟨m', hm'⟩ := hobj
      cases q with
      | nil =>
        have hget : (restored paths file m).get k = Json.member m k :=
          hother (Or.inr fun s h => (hq _ h).2 (List.cons_prefix_cons.2 ⟨rfl, List.nil_prefix⟩))
        rw [hget]
      | cons s q =>
        obtain ⟨m'', hm'', hsub⟩ := hgroup m' hm'
        have hget : (restored paths file m).get k = some (.obj m'') := hm''
        have hs : [k, s] ∉ paths := fun h =>
          (hq _ h).1 (List.cons_prefix_cons.2 ⟨rfl, List.cons_prefix_cons.2 ⟨rfl, List.nil_prefix⟩⟩)
        rw [hget, hm', Option.bind_some, Option.bind_some, Json.atPath, Json.atPath, Json.get_obj, Json.get_obj, hsub,
          if_neg hs]
    · have hget : (restored paths file m).get k = Json.member m k :=
        hother (Or.inl fun m' h => hobj ⟨m', h⟩)
      rw [hget]

private theorem restored_listed (hpaths : ∀ p ∈ paths, IsManaged p) :
    (restored paths file m).get (js "_managed") = none := by
  have hno : ∀ p ∈ paths, p.head? ≠ some (js "_managed") := by
    intro p hp hhead
    obtain ⟨k, rest, rfl, hk⟩ := head_ne hpaths hp
    exact hk (Option.some.inj hhead)
  have hspec := (member_foldl_restore hpaths (savedBefore file) (Json.remove m (js "_managed")) (js "_managed")).2
    (fun h => hno _ h rfl)
  refine (hspec.2 (Or.inr fun s h => hno _ h rfl)).trans ?_
  rw [Json.member_remove, if_pos rfl]

end

/-! ### Showing saved values again -/

private theorem member_foldl_show_of_ne {es out : List (JsString × Json)} {k : JsString} (h : ∀ e ∈ es, e.1 ≠ k) :
    Json.member (es.foldl showSetting out) k = Json.member out k := by
  induction es generalizing out with
  | nil => rfl
  | cons e es ih =>
    rw [List.foldl_cons, ih fun e' he' => h e' (List.mem_cons_of_mem _ he'), showSetting, Json.member_put,
      if_neg fun hk => h e List.mem_cons_self hk.symm]

private theorem member_foldl_show_nested {es out : List (JsString × Json)} {k sub : JsString}
    (h : ∀ e ∈ es, e.1 = k → ∃ v, e.2 = .obj v ∧ ∀ n ∈ v, n.1 ≠ sub) :
    (Json.member (es.foldl showSetting out) k).bind (fun w => w.get sub) = (Json.member out k).bind fun w => w.get sub := by
  induction es generalizing out with
  | nil => rfl
  | cons e es ih =>
    rw [List.foldl_cons, ih fun e' he' => h e' (List.mem_cons_of_mem _ he'), showSetting, Json.member_put]
    split
    · rename_i hk
      obtain ⟨v, hv, hsub⟩ := h e List.mem_cons_self hk.symm
      rw [hv, ← hk, Option.bind_some]
      split
      · rename_i v' m hv' hm
        cases hv'
        rw [hm, Option.bind_some, Json.get_obj, Json.get_obj, Json.member_spread_of_notMem hsub]
      · rename_i hno
        have habsent : Json.member v sub = none := Json.member_eq_none.2 fun hm => by
          obtain ⟨n, hn, he⟩ := List.mem_map.1 hm
          exact hsub n hn he
        rw [Json.get_obj, habsent]
        cases hm : Json.member out k with
        | none => rfl
        | some w =>
          rw [Option.bind_some, Json.get_of_ne_obj]
          rintro m rfl
          exact hno v m rfl hm
    · rfl

theorem get_configJson (c : Conf) (file : Option Json) {k : JsString} (hk : k ≠ js "_managed") :
    (configJson c file).get k = Json.member (c.settings.foldl showSetting (membersOf file)) k := by
  show Json.member (Json.put _ (js "_managed") _) k = _
  rw [Json.member_put, if_neg hk]

/-- A value that no file sets is shown as it is saved. -/
private theorem atPath_configJson {text : Json → Except JsString JsString} {dir : Dir} {file : Option Json}
    {p : List JsString}
    (hp : IsManaged p) (hfree : p ∉ pathsOf (readConfd text dir).managed) :
    (configJson (readConfd text dir) file).atPath p = fileAt file p := by
  have hmembers : ∀ k, Json.member (membersOf file) k = file.bind fun v => v.get k := by
    intro k
    cases file with
    | none => rfl
    | some v => cases v <;> rfl
  rw [mem_paths_iff] at hfree
  rcases hp with ⟨k, rfl, hnot, hk⟩ | ⟨k, sub, rfl, hnested⟩
  · have hne : ∀ e ∈ (readConfd text dir).settings, e.1 ≠ k := fun e he hek =>
      hfree ⟨e, he, Or.inl ⟨hek ▸ hnot, by rw [hek]⟩⟩
    rw [Json.atPath, get_configJson _ _ hk, member_foldl_show_of_ne hne, hmembers, fileAt_top, get_savedBefore]
    cases file.bind fun v => v.get k <;> rfl
  · have hk : k ≠ js "_managed" := by
      rintro rfl
      exact absurd hnested (by decide)
    have hne : ∀ e ∈ (readConfd text dir).settings, e.1 = k → ∃ v, e.2 = .obj v ∧ ∀ n ∈ v, n.1 ≠ sub := by
      intro e he hek
      obtain ⟨v, hv, -⟩ := (isSetting_readConfd text dir e he).2 (hek ▸ hnested)
      refine ⟨v, hv, fun n hn hsub => hfree ⟨e, he, Or.inr ⟨hek ▸ hnested, n, ?_, by rw [hek, hsub]⟩⟩⟩
      rw [hv]
      exact hn
    have hget := @member_foldl_show_nested _ (membersOf file) _ _ hne
    rw [hmembers] at hget
    rw [fileAt_nested, get_savedBefore, ← hget, Json.atPath, get_configJson _ _ hk]
    cases Json.member ((readConfd text dir).settings.foldl showSetting (membersOf file)) k with
    | none => rfl
    | some w =>
      rw [Option.bind_some, Option.bind_some, Json.atPath]
      cases w.get sub <;> rfl

/-! ### Saving and showing -/

/-- **A save keeps what files manage**, and takes the rest as posted, if and only if the posted object has the groups of
the saved values under managed paths, these values and the rest of what is posted hold no infinite number, and it has no
`_managed`. -/
theorem save_kept_iff {text : Json → Except JsString JsString} {dir : Dir} {file : Option Json} {posted saved : Json}
    {written : Bool} (h : saveConfig text (readConfd text dir).managed file (some posted) written = .ok saved) :
    let paths := pathsOf (readConfd text dir).managed
    Kept text paths file posted saved ↔ Restorable paths file posted := by
  intro paths
  have hpaths : ∀ p ∈ paths, IsManaged p := fun p hp => isManaged_of_readConfd hp
  obtain ⟨m, rfl, hsaved⟩ := saveConfig_eq_ok h
  have hsaved : saved = (restored paths file m).written := hsaved
  have hat : ∀ q, saved.atPath q = ((restored paths file m).atPath q).map Json.written := fun q => by
    rw [hsaved, Json.atPath_written]
  have hfixed : ∀ {o : Option Json}, (∀ v, o = some v → v.finite = true) → o.map Json.written = o := by
    intro o ho
    cases o with
    | none => rfl
    | some v => rw [Option.map_some, Json.written_of_finite (ho v rfl)]
  constructor
  · intro hkept
    have hunlisted : Json.member m (js "_managed") = none := by
      have hq : Outside paths [js "_managed"] := by
        intro p hp
        obtain ⟨k, rest, rfl, hk⟩ := head_ne hpaths hp
        exact ⟨fun hpre => hk (List.cons_prefix_cons.1 hpre).1, fun hpre => hk (List.cons_prefix_cons.1 hpre).1.symm⟩
      have hothers := hkept.others _ hq
      rw [hat, Json.atPath, restored_listed hpaths, Json.atPath, Json.get_obj] at hothers
      cases hm : Json.member m (js "_managed") with
      | none => rfl
      | some v =>
        rw [hm] at hothers
        cases hothers
    refine ⟨fun k sub hp hsome => ?_, fun p hp v hv => ?_, fun q hq v hv => ?_, hunlisted⟩
    · have hspec := (member_foldl_restore hpaths (savedBefore file) (Json.remove m (js "_managed")) k).2
        (top_notMem hpaths hp)
      obtain ⟨k', rest, hhead, hk⟩ := head_ne hpaths hp
      obtain rfl := (List.cons.inj hhead).1
      rw [Json.member_remove, if_neg hk] at hspec
      -- the saved value is inside an object, and only a posted one is there
      by_contra hno
      have hno : ∀ m', Json.member m k ≠ some (.obj m') := by
        intro m' hm'
        rw [Json.get_obj, hm'] at hno
        exact hno rfl
      have hget : (restored paths file m).get k = Json.member m k := hspec.2 (Or.inl hno)
      apply hsome
      rw [← hkept.managed _ hp, hat, Json.atPath, hget]
      rw [atPath_of_ne_obj hno]
      rfl
    · have hmanaged := hkept.managed p hp
      rw [hv, hat] at hmanaged
      obtain ⟨w, -, rfl⟩ := Option.map_eq_some_iff.1 hmanaged
      exact Json.finite_written w
    · have hothers := hkept.others q hq
      rw [hv, hat] at hothers
      obtain ⟨w, -, rfl⟩ := Option.map_eq_some_iff.1 hothers
      exact Json.finite_written w
  · intro hrestorable
    have hmanaged : ∀ p ∈ paths, saved.atPath p = fileAt file p := by
      intro p hp
      rw [hat, restored_managed hpaths hrestorable.grouped hp]
      exact hfixed (hrestorable.finite_before p hp)
    refine ⟨hmanaged, fun dir' p hp hfree => ?_, fun q hq => ?_⟩
    · exact (atPath_configJson (hpaths p hp) hfree).trans (hmanaged p hp)
    · rw [hat, restored_outside hpaths hrestorable.unlisted hq]
      exact hfixed (hrestorable.finite_posted q hq)

/-! ### A group that is not posted -/

private def noText : Json → Except JsString JsString := fun _ => .ok []

/-- A file that sets the unit of temperatures. -/
private def unitsFile : Dir := .ok [(js "10-units.json", .file ⟨40, .ok (.ok (.obj [(js "settings", .obj [(js "units",
  .obj [(js "temp", .str (js "f"))])])]))⟩)]

private def own : Json := .obj [(js "title", .str (js "my lab")), (js "units", .obj [(js "temp", .str (js "c"))])]

private def shown : Json := .obj [(js "title", .str (js "lab")), (js "units", .obj [(js "temp", .str (js "f"))])]

private def untitled : Json := .obj [(js "title", .str (js "lab"))]

private theorem paths_unitsFile : pathsOf (readConfd noText unitsFile).managed = [[js "units", js "temp"]] := by
  decide +kernel

/-- The page posts what it shows: its own unit stays underneath. -/
theorem own_unit_stays : Kept noText (pathsOf (readConfd noText unitsFile).managed) (some own) shown
    (.obj [(js "title", .str (js "lab")), (js "units", .obj [(js "temp", .str (js "c"))])]) := by
  have h : saveConfig noText (readConfd noText unitsFile).managed (some own) (some shown) true =
      .ok (.obj [(js "title", .str (js "lab")), (js "units", .obj [(js "temp", .str (js "c"))])]) := by rfl
  refine (save_kept_iff h).2 ⟨fun k sub hp _ => ?_, fun p _ v hv => ?_, fun q _ v hv => ?_, by rfl⟩
  · rw [paths_unitsFile, List.mem_singleton] at hp
    cases hp
    rfl
  · exact Json.finite_atPath (show own.finite = true by rfl) hv
  · exact Json.finite_atPath (show shown.finite = true by rfl) hv

/-- The posted object has no units: the save takes it as it is, and the saved unit is lost. -/
theorem own_unit_lost :
    let paths := pathsOf (readConfd noText unitsFile).managed
    saveConfig noText (readConfd noText unitsFile).managed (some own) (some untitled) true = .ok untitled ∧
      [js "units", js "temp"] ∈ paths ∧ fileAt (some own) [js "units", js "temp"] = some (.str (js "c")) ∧
      untitled.atPath [js "units", js "temp"] = none ∧ ¬ Kept noText paths (some own) untitled untitled := by
  intro paths
  have hmem : [js "units", js "temp"] ∈ paths := by
    rw [show paths = _ from paths_unitsFile]
    exact List.mem_singleton_self _
  refine ⟨by rfl, hmem, by rfl, by rfl, fun hkept => ?_⟩
  have hmanaged := hkept.managed _ hmem
  cases hmanaged

end Confd

end Servitals
