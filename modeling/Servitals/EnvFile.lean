import Servitals.AgentSig
import Servitals.Lib.Latest

/-!
# Settings files

`hub.env`, `agent.env` and the agent's credentials are lines `KEY=value`.  `servitals-ctl` reads them with `env_get` and
writes them with `env_set`; its `import-docker` sets many keys in a row.  `bootstrap.js` reads them with `readEnvFile` and
`servitals-agent` with `load_agent_env`.

`env_set` writes over the first line of a key, also when that is a comment, and `env_get` reads the last: what is set is
what is read exactly when no line of the key comes after the first (`envGet_envSet`, `import_docker`).
-/

namespace Servitals

namespace EnvFile

open Entries (last last_cons last_append last_eq_none)

/-! ### Lines -/

/-- The lines of a text, as `read` and awk give them: the last one needs no end. -/
def textLines (s : JsString) : List JsString :=
  if (split 0x0a s).getLast? = some [] then (split 0x0a s).dropLast else split 0x0a s

/-- `printf '%s\n'` for each line. -/
def unlines (ls : List JsString) : JsString := ls.flatMap fun l => l ++ [0x0a]

private theorem split_unlines {ls : List JsString} (h : ∀ l ∈ ls, 0x0a ∉ l) : split 0x0a (unlines ls) = ls ++ [[]] := by
  induction ls with
  | nil => rfl
  | cons l ls ih =>
    have htext : unlines (l :: ls) = l ++ 0x0a :: unlines ls := by simp [unlines]
    rw [htext, split_append_cons (h l List.mem_cons_self), ih fun x hx => h x (List.mem_cons_of_mem l hx), List.cons_append]

theorem textLines_unlines {ls : List JsString} (h : ∀ l ∈ ls, 0x0a ∉ l) : textLines (unlines ls) = ls := by
  rw [textLines, split_unlines h, if_pos (by simp), List.dropLast_concat]

private theorem notMem_split {sep : UInt16} {s p : JsString} (hp : p ∈ split sep s) : sep ∉ p := by
  induction s generalizing p with
  | nil =>
    rw [List.mem_singleton.1 hp]
    exact List.not_mem_nil
  | cons u s ih =>
    rw [split] at hp
    split at hp
    · rcases List.mem_cons.1 hp with rfl | hp
      · exact List.not_mem_nil
      · exact ih hp
    · rename_i hu
      cases hs : split sep s with
      | nil => exact absurd hs (split_ne_nil sep s)
      | cons q qs =>
        rw [hs] at hp ih
        rcases List.mem_cons.1 hp with rfl | hp
        · rw [List.mem_cons, not_or]
          exact ⟨Ne.symm hu, ih List.mem_cons_self⟩
        · exact ih (List.mem_cons_of_mem q hp)

private theorem notMem_textLines {s l : JsString} (hl : l ∈ textLines s) : 0x0a ∉ l := by
  refine @notMem_split 0x0a s l ?_
  rw [textLines] at hl
  split at hl
  · exact List.mem_of_mem_dropLast hl
  · exact hl

/-! ### Getting and setting -/

/-- `[[ $line == "$k="* ]]`, and `index($0, k "=") == 1` -/
def isKeyLine (k line : JsString) : Bool := (k ++ [0x3d]).isPrefixOf line

/-- A line that `env_set` writes over: the key's, or a comment with it. -/
def isPlace (k line : JsString) : Bool := isKeyLine k line || (js "# " ++ k ++ [0x3d]).isPrefixOf line

/-- `s/^q\(.*\)q$/\1/` -/
def unquote (q : UInt16) (v : JsString) : JsString :=
  if 2 ≤ v.length ∧ v.head? = some q ∧ v.getLast? = some q then v.tail.dropLast else v

/-- What `env_get` makes of a value: without carriage returns, and without its quotes. -/
def clean (v : JsString) : JsString := unquote 0x22 (unquote 0x27 (v.filter (· ≠ 0x0d)))

/-- What stands behind the last `KEY=`. -/
def valueOf (k : JsString) (ls : List JsString) : Option JsString :=
  ((ls.filter (isKeyLine k)).getLast?).map fun l => l.drop (k.length + 1)

/-- `env_get` -/
def envGet (text k : JsString) : JsString := clean ((valueOf k (textLines text)).getD [])

/-- `printf '%s=%s'` -/
def keyLine (k v : JsString) : JsString := k ++ 0x3d :: v

/-- The loop of `env_set` until it is done, and the line it puts at the end otherwise. -/
def setLine (k v : JsString) : List JsString → List JsString
  | [] => [keyLine k v]
  | l :: ls => if isPlace k l then keyLine k v :: ls else l :: setLine k v ls

/-- `env_set` -/
def envSet (text k v : JsString) : JsString := unlines (setLine k v (textLines text))

/-- A line of the key comes after the place where it is set. -/
def shadowed (k : JsString) : List JsString → Bool
  | [] => false
  | l :: ls => if isPlace k l then ls.any (isKeyLine k) else shadowed k ls

/-- The name of a setting: letters, digits and underscores. -/
def IsName (k : JsString) : Prop :=
  k.all (fun u => unitIn 'A' 'Z' u || unitIn 'a' 'z' u || unitIn '0' '9' u || u == 0x5f) = true

instance (k : JsString) : Decidable (IsName k) := inferInstanceAs (Decidable (_ = _))

private theorem IsName.notMem {k : JsString} (h : IsName k) : 0x3d ∉ k ∧ 0x20 ∉ k ∧ 0x0a ∉ k := by
  have hall := List.all_eq_true.1 h
  exact ⟨fun hm => absurd (hall _ hm) (by decide), fun hm => absurd (hall _ hm) (by decide),
    fun hm => absurd (hall _ hm) (by decide)⟩

private theorem isKeyLine_iff {k l : JsString} : isKeyLine k l = true ↔ ∃ v, l = keyLine k v := by
  rw [isKeyLine, List.isPrefixOf_iff_prefix]
  constructor
  · rintro ⟨v, hv⟩
    exact ⟨v, by rw [← hv, keyLine, List.append_assoc, List.singleton_append]⟩
  · rintro ⟨v, rfl⟩
    exact ⟨v, by rw [keyLine, List.append_assoc, List.singleton_append]⟩

private theorem isKeyLine_keyLine (k v : JsString) : isKeyLine k (keyLine k v) = true := isKeyLine_iff.2 ⟨v, rfl⟩

private theorem isPlace_of_isKeyLine {k l : JsString} (h : isKeyLine k l = true) : isPlace k l = true := by
  rw [isPlace, h, Bool.true_or]

private theorem drop_keyLine (k v : JsString) : (keyLine k v).drop (k.length + 1) = v := by
  rw [keyLine, ← List.drop_drop, List.drop_left]
  rfl

/-- A line is the place of one key only. -/
private theorem eq_of_isPlace {k k' l : JsString} (hk : IsName k) (hk' : IsName k') (h : isPlace k l = true)
    (h' : isPlace k' l = true) : k = k' := by
  have hmark : js "# " = [0x23, 0x20] := by decide
  have hshape : ∀ {x : JsString}, isPlace x l = true → ∃ v, l = x ++ 0x3d :: v ∨ l = [0x23, 0x20] ++ x ++ 0x3d :: v := by
    intro x hx
    rw [isPlace, Bool.or_eq_true] at hx
    rcases hx with hx | hx
    · obtain ⟨v, hv⟩ := isKeyLine_iff.1 hx
      exact ⟨v, Or.inl hv⟩
    · obtain ⟨v, hv⟩ := List.isPrefixOf_iff_prefix.1 hx
      refine ⟨v, Or.inr ?_⟩
      rw [← hv, hmark, List.append_assoc _ [0x3d] v, List.singleton_append]
  have hnoted : ∀ {x : JsString}, IsName x → (0x3d : UInt16) ∉ [0x23, 0x20] ++ x := by
    intro x hx hm
    rcases List.mem_append.1 hm with hm | hm
    · exact absurd hm (by decide)
    · exact hx.notMem.1 hm
  have hblank : ∀ {x y : JsString}, IsName x → x ≠ [0x23, 0x20] ++ y := by
    rintro x y hx rfl
    exact hx.notMem.2.1 (List.mem_append_left y (by decide))
  obtain ⟨v, hv⟩ := hshape h
  obtain ⟨v', hv'⟩ := hshape h'
  rcases hv with hv | hv <;> rcases hv' with hv' | hv'
  · exact (append_sep_inj hk.notMem.1 hk'.notMem.1 (hv.symm.trans hv')).1
  · exact absurd (append_sep_inj hk.notMem.1 (hnoted hk') (hv.symm.trans hv')).1 (hblank hk)
  · exact absurd (append_sep_inj (hnoted hk) hk'.notMem.1 (hv.symm.trans hv')).1.symm (hblank hk')
  · exact List.append_cancel_left (append_sep_inj (hnoted hk) (hnoted hk') (hv.symm.trans hv')).1

private theorem isPlace_keyLine (k v : JsString) :
    isPlace k (keyLine k v) = true := isPlace_of_isKeyLine (isKeyLine_keyLine k v)

private theorem valueOf_cons_of_not {k l : JsString} (h : isKeyLine k l = false) (ls : List JsString) :
    valueOf k (l :: ls) = valueOf k ls := by
  rw [valueOf, List.filter_cons_of_neg (by rw [h]; exact Bool.false_ne_true)]
  rfl

/-- The value behind a line of the key is its own, when no other comes after it. -/
private theorem valueOf_keyLine_cons (k v : JsString) (ls : List JsString) :
    valueOf k (keyLine k v :: ls) = if ls.any (isKeyLine k) then valueOf k ls else some v := by
  rw [valueOf, List.filter_cons_of_pos (isKeyLine_keyLine k v)]
  split
  · rename_i hany
    have hne : ls.filter (isKeyLine k) ≠ [] := by
      obtain ⟨l, hl, hk⟩ := List.any_eq_true.1 hany
      exact List.ne_nil_of_mem (List.mem_filter.2 ⟨hl, hk⟩)
    rw [List.getLast?_cons_of_ne_nil hne]
    rfl
  · rename_i hnone
    have hnil : ls.filter (isKeyLine k) = [] := by
      rw [List.filter_eq_nil_iff]
      intro l hl hk
      exact hnone (List.any_eq_true.2 ⟨l, hl, hk⟩)
    rw [hnil, List.getLast?_singleton, Option.map_some, drop_keyLine]

/-- What is behind the key after it was set: the value, or what a later line says. -/
private theorem valueOf_setLine (k v : JsString) (ls : List JsString) :
    valueOf k (setLine k v ls) = if shadowed k ls then valueOf k ls else some v := by
  induction ls with
  | nil => exact valueOf_keyLine_cons k v []
  | cons l ls ih =>
    rw [setLine, shadowed]
    by_cases hplace : isPlace k l = true
    · rw [if_pos hplace, if_pos hplace, valueOf_keyLine_cons]
      split
      · rename_i hany
        -- the line written over said nothing: a later one does
        by_cases hkey : isKeyLine k l = true
        · obtain ⟨w, rfl⟩ := isKeyLine_iff.1 hkey
          rw [valueOf_keyLine_cons, if_pos hany]
        · rw [valueOf_cons_of_not (Bool.eq_false_iff.2 hkey)]
      · rfl
    · have hkey : isKeyLine k l = false := by
        rw [Bool.eq_false_iff]
        exact fun hkey => hplace (isPlace_of_isKeyLine hkey)
      rw [if_neg hplace, if_neg hplace, valueOf_cons_of_not hkey, ih, valueOf_cons_of_not hkey]

/-- Lines that are the same but for a place of another key say the same of this one. -/
private theorem setLine_frame {k k' : JsString} (hk : IsName k) (hk' : IsName k') (hne : k ≠ k') (v : JsString)
    (ls : List JsString) :
    valueOf k' (setLine k v ls) = valueOf k' ls ∧ (setLine k v ls).any (isKeyLine k') = ls.any (isKeyLine k') ∧
      shadowed k' (setLine k v ls) = shadowed k' ls := by
  have hother : ∀ {l}, isPlace k l = true → isPlace k' l = false := by
    intro l hl
    rw [Bool.eq_false_iff]
    exact fun hl' => hne (eq_of_isPlace hk hk' hl hl')
  have hkey : ∀ {l}, isPlace k' l = false → isKeyLine k' l = false := by
    intro l hl
    rw [isPlace, Bool.or_eq_false_iff] at hl
    exact hl.1
  have hset := hother (isPlace_keyLine k v)
  induction ls with
  | nil =>
    refine ⟨?_, ?_, ?_⟩
    · rw [setLine, valueOf_cons_of_not (hkey hset)]
    · rw [setLine, List.any_cons, hkey hset, Bool.false_or]
    · show (if isPlace k' (keyLine k v) then [].any (isKeyLine k') else false) = false
      rw [hset]
      rfl
  | cons l ls ih =>
    obtain ⟨ih1, ih2, ih3⟩ := ih
    rw [setLine]
    by_cases hplace : isPlace k l = true
    · have hl := hother hplace
      rw [if_pos hplace]
      refine ⟨?_, ?_, ?_⟩
      · rw [valueOf_cons_of_not (hkey hset), valueOf_cons_of_not (hkey hl)]
      · rw [List.any_cons, List.any_cons, hkey hset, hkey hl]
      · rw [shadowed, shadowed, hset, hl]
    · rw [if_neg hplace]
      refine ⟨?_, ?_, ?_⟩
      · by_cases hl : isKeyLine k' l = true
        · obtain ⟨w, rfl⟩ := isKeyLine_iff.1 hl
          rw [valueOf_keyLine_cons, valueOf_keyLine_cons, ih1, ih2]
        · rw [valueOf_cons_of_not (Bool.eq_false_iff.2 hl), valueOf_cons_of_not (Bool.eq_false_iff.2 hl), ih1]
      · rw [List.any_cons, List.any_cons, ih2]
      · rw [shadowed, shadowed, ih2, ih3]

private theorem mem_setLine {k v l : JsString} {ls : List JsString} (h : l ∈ setLine k v ls) :
    l = keyLine k v ∨ l ∈ ls := by
  induction ls with
  | nil => exact Or.inl (List.mem_singleton.1 h)
  | cons x ls ih =>
    rw [setLine] at h
    split at h
    · rcases List.mem_cons.1 h with h | h
      · exact Or.inl h
      · exact Or.inr (List.mem_cons_of_mem x h)
    · rcases List.mem_cons.1 h with rfl | h
      · exact Or.inr List.mem_cons_self
      · exact (ih h).imp_right (List.mem_cons_of_mem x)

private theorem textLines_envSet {k v : JsString} (hk : IsName k) (hv : 0x0a ∉ v) (text : JsString) :
    textLines (envSet text k v) = setLine k v (textLines text) := by
  refine textLines_unlines fun l hl => ?_
  rcases mem_setLine hl with rfl | hl
  · rw [keyLine, List.mem_append, List.mem_cons]
    rintro (h | h | h)
    · exact hk.notMem.2.2 h
    · exact absurd h (by decide)
    · exact hv h
  · exact notMem_textLines hl

private theorem unquote_sublist (q : UInt16) (v : JsString) : (unquote q v).Sublist v := by
  unfold unquote
  split
  · exact (List.dropLast_sublist _).trans (List.tail_sublist v)
  · exact List.Sublist.refl v

private theorem clean_sublist (v : JsString) : (clean v).Sublist v :=
  ((unquote_sublist _ _).trans (unquote_sublist _ _)).trans List.filter_sublist

/-- What `env_get` prints is one line. -/
private theorem notMem_envGet (text k : JsString) : 0x0a ∉ envGet text k := by
  intro h
  have h := (clean_sublist _).subset h
  rw [valueOf] at h
  cases hl : ((textLines text).filter (isKeyLine k)).getLast? with
  | none =>
    rw [hl] at h
    exact absurd h List.not_mem_nil
  | some l =>
    rw [hl] at h
    have hmem := List.mem_of_mem_filter (List.mem_of_getLast? hl)
    exact notMem_textLines hmem (List.mem_of_mem_drop h)

/-- A value that is set is read, unless a later line says another. -/
theorem envGet_envSet {k v : JsString} (hk : IsName k) (hv : 0x0a ∉ v) (text : JsString) :
    envGet (envSet text k v) k = if shadowed k (textLines text) then envGet text k else clean v := by
  rw [envGet, textLines_envSet hk hv, valueOf_setLine]
  split
  · rfl
  · rfl

private theorem envGet_envSet_of_ne {k k' v : JsString} (hk : IsName k) (hk' : IsName k') (hne : k ≠ k') (hv : 0x0a ∉ v)
    (text : JsString) : envGet (envSet text k v) k' = envGet text k' := by
  rw [envGet, textLines_envSet hk hv, (setLine_frame hk hk' hne v _).1]
  rfl

/-! ### Importing a Docker install -/

/-- `[ -z "$v" ] || env_set "$f" "$k" "$v"` -/
def setIf (text k v : JsString) : JsString := if v = [] then text else envSet text k v

/-- What a command substitution of one line gives. -/
abbrev OneLine := { s : JsString // 0x0a ∉ s }

def HUB_KEYS : List JsString := [js "AUTH_USER", js "MAX_FAILS", js "BAN_HOURS", js "SESSION_HOURS", js "SITE_NAME"]

def AGENT_KEYS : List JsString := [js "DISKS", js "NET_IFACE"]

/-- The login's hash: the one of the install, or one of its plain password. -/
def importedHash (hash : JsString → OneLine) (env : JsString) : JsString :=
  if envGet env (js "AUTH_PASS_HASH") = [] then
    if envGet env (js "AUTH_PASS") = [] then [] else (hash (envGet env (js "AUTH_PASS"))).1
  else envGet env (js "AUTH_PASS_HASH")

/-- What `cmd_import_docker` does with `hub.env`. -/
def importHub (hash : JsString → OneLine) (env hub : JsString) : JsString :=
  setIf (HUB_KEYS.foldl (fun hub k => setIf hub k (envGet env k)) hub) (js "AUTH_PASS_HASH") (importedHash hash env)

/-- What it does with `agent.env`. -/
def importAgent (env agent : JsString) : JsString := AGENT_KEYS.foldl (fun agent k => setIf agent k (envGet env k)) agent

/-- The value that a list of settings has for a key, or nothing. -/
def given (es : List (JsString × JsString)) (k : JsString) : JsString :=
  ((es.find? fun e => e.1 = k).map Prod.snd).getD []

/-- The settings that the hub is given. -/
def hubSettings (hash : JsString → OneLine) (env : JsString) : List (JsString × JsString) :=
  HUB_KEYS.map (fun k => (k, envGet env k)) ++ [(js "AUTH_PASS_HASH", importedHash hash env)]

def agentSettings (env : JsString) : List (JsString × JsString) := AGENT_KEYS.map fun k => (k, envGet env k)

private theorem given_cons (e : JsString × JsString) (es : List (JsString × JsString)) (k : JsString) :
    given (e :: es) k = if e.1 = k then e.2 else given es k := by
  unfold given
  by_cases h : e.1 = k <;> simp [h]

private theorem given_of_notMem {es : List (JsString × JsString)} {k : JsString} (h : k ∉ es.map Prod.fst) :
    given es k = [] := by
  induction es with
  | nil => rfl
  | cons e es ih =>
    rw [List.map_cons, List.mem_cons, not_or] at h
    rw [given_cons, if_neg (Ne.symm h.1), ih h.2]

/-- One setting leaves the places of the others as they are. -/
private theorem setIf_frame {k k' v : JsString} (hk : IsName k) (hk' : IsName k') (hne : k ≠ k') (hv : 0x0a ∉ v)
    (text : JsString) :
    envGet (setIf text k v) k' = envGet text k' ∧ shadowed k' (textLines (setIf text k v)) = shadowed k' (textLines text) := by
  unfold setIf
  split
  · exact ⟨rfl, rfl⟩
  · rw [textLines_envSet hk hv]
    exact ⟨envGet_envSet_of_ne hk hk' hne hv text, (setLine_frame hk hk' hne v _).2.2⟩

/-- Many settings in a row: each key is read as it was given, unless it was given nothing or a later line says another;
and a key that is not among them is read as before. -/
private theorem envGet_settings {es : List (JsString × JsString)} (hes : ∀ e ∈ es, IsName e.1 ∧ 0x0a ∉ e.2)
    (hnodup : (es.map Prod.fst).Nodup) {k : JsString} (hk : IsName k) (text : JsString) :
    envGet (es.foldl (fun text e => setIf text e.1 e.2) text) k =
      if given es k = [] ∨ shadowed k (textLines text) then envGet text k else clean (given es k) := by
  induction es generalizing text with
  | nil =>
    rw [if_pos (Or.inl (show given [] k = [] from rfl))]
    rfl
  | cons e es ih =>
    obtain ⟨he, hv⟩ := hes e List.mem_cons_self
    rw [List.map_cons, List.nodup_cons] at hnodup
    rw [List.foldl_cons, ih (fun x hx => hes x (List.mem_cons_of_mem e hx)) hnodup.2, given_cons]
    by_cases hek : e.1 = k
    · -- the key's own setting: none of the others is for it
      subst hek
      rw [given_of_notMem hnodup.1, if_pos (Or.inl rfl), if_pos rfl, setIf]
      by_cases hnil : e.2 = []
      · rw [if_pos hnil, if_pos (Or.inl hnil)]
      · rw [if_neg hnil, envGet_envSet he hv]
        by_cases hs : shadowed e.1 (textLines text) = true
        · rw [if_pos hs, if_pos (Or.inr hs)]
        · rw [if_neg hs, if_neg (not_or.2 ⟨hnil, hs⟩)]
    · obtain ⟨hget, hshadow⟩ := setIf_frame he hk hek hv text
      rw [if_neg hek, hget, hshadow]

/-- The value stands between quotes. -/
def Quoted (v : JsString) : Prop := 2 ≤ v.length ∧ ∃ q ∈ [(0x27 : UInt16), 0x22], v.head? = some q ∧ v.getLast? = some q

/-- A value is changed when it is read exactly when it stands between quotes. -/
private theorem clean_eq_self_iff {v : JsString} (hcr : 0x0d ∉ v) : clean v = v ↔ ¬ Quoted v := by
  have hfilter : v.filter (· ≠ 0x0d) = v := by
    rw [List.filter_eq_self]
    intro u hu
    rw [decide_eq_true_eq]
    rintro rfl
    exact hcr hu
  have hshort : ∀ q w, (unquote q w).length ≤ w.length := fun q w => (unquote_sublist q w).length_le
  have hcut : ∀ {q}, 2 ≤ v.length ∧ v.head? = some q ∧ v.getLast? = some q → (unquote q v).length < v.length := by
    intro q hq
    rw [unquote, if_pos hq, List.length_dropLast, List.length_tail]
    omega
  rw [clean, hfilter]
  by_cases hsingle : 2 ≤ v.length ∧ v.head? = some 0x27 ∧ v.getLast? = some 0x27
  · refine iff_of_false (fun h => ?_) (not_not_intro ⟨hsingle.1, 0x27, by decide, hsingle.2⟩)
    have hlen := congrArg List.length h
    have := hshort 0x22 (unquote 0x27 v)
    have := hcut hsingle
    omega
  · have hkept : unquote 0x27 v = v := if_neg hsingle
    rw [hkept]
    by_cases hdouble : 2 ≤ v.length ∧ v.head? = some 0x22 ∧ v.getLast? = some 0x22
    · refine iff_of_false (fun h => ?_) (not_not_intro ⟨hdouble.1, 0x22, by decide, hdouble.2⟩)
      have hlen := congrArg List.length h
      have := hcut hdouble
      omega
    · refine iff_of_true (if_neg hdouble) ?_
      rintro ⟨hlen, q, hq, hends⟩
      simp only [List.mem_cons, List.not_mem_nil, or_false] at hq
      rcases hq with rfl | rfl
      · exact hsingle ⟨hlen, hends⟩
      · exact hdouble ⟨hlen, hends⟩

/-- **Importing a Docker install.**  For every text of the install's `.env` and of the two files, every key of `hub.env`
is read after the import as the install gives it, and a key that the install says nothing of as before; so is a key with
a second line behind the one that was written over.  The same for `agent.env`.  What the install gives is read once more,
so that a value without carriage returns is changed exactly when it is still between quotes. -/
theorem import_docker (hash : JsString → OneLine) (env hub agent : JsString) (k : { k : JsString // IsName k }) :
    envGet (importHub hash env hub) k.1 =
        (if given (hubSettings hash env) k.1 = [] ∨ shadowed k.1 (textLines hub) then envGet hub k.1
          else clean (given (hubSettings hash env) k.1)) ∧
      envGet (importAgent env agent) k.1 =
        (if given (agentSettings env) k.1 = [] ∨ shadowed k.1 (textLines agent) then envGet agent k.1
          else clean (given (agentSettings env) k.1)) ∧
      ∀ v, 0x0d ∉ v → (clean v = v ↔ ¬ Quoted v) := by
  have hhash : 0x0a ∉ importedHash hash env := by
    unfold importedHash
    split
    · split
      · exact List.not_mem_nil
      · exact (hash _).2
    · exact notMem_envGet env _
  have hkeys : ∀ x ∈ HUB_KEYS ++ AGENT_KEYS ++ [js "AUTH_PASS_HASH"], IsName x := by decide +kernel
  refine ⟨?_, ?_, fun v => clean_eq_self_iff⟩
  · have hfold : importHub hash env hub = (hubSettings hash env).foldl (fun text e => setIf text e.1 e.2) hub := by
      rw [hubSettings, List.foldl_append, List.foldl_map]
      rfl
    rw [hfold]
    refine envGet_settings (fun e he => ?_) ?_ k.2 hub
    · rcases List.mem_append.1 he with he | he
      · obtain ⟨x, hx, rfl⟩ := List.mem_map.1 he
        exact ⟨hkeys x (by simp [hx]), notMem_envGet env x⟩
      · rw [List.mem_singleton.1 he]
        exact ⟨hkeys _ (by simp), hhash⟩
    · have hfst : (hubSettings hash env).map Prod.fst = HUB_KEYS ++ [js "AUTH_PASS_HASH"] := by
        simp [hubSettings, Function.comp_def]
      rw [hfst]
      decide +kernel
  · have hfold : importAgent env agent = (agentSettings env).foldl (fun text e => setIf text e.1 e.2) agent := by
      rw [agentSettings, List.foldl_map]
      rfl
    rw [hfold]
    refine envGet_settings (fun e he => ?_) ?_ k.2 agent
    · obtain ⟨x, hx, rfl⟩ := List.mem_map.1 he
      exact ⟨hkeys x (by simp [hx]), notMem_envGet env x⟩
    · have hfst : (agentSettings env).map Prod.fst = AGENT_KEYS := by simp [agentSettings, Function.comp_def]
      rw [hfst]
      decide +kernel

/-- A comment with the key, and the key behind it: what is set is not read. -/
example : envGet (envSet (js "# DISKS=auto\nDISKS=/\n") (js "DISKS") (js "/srv")) (js "DISKS") = js "/" := by decide +kernel

/-! ### The other readers -/

/-- `${v%$'\r'}` -/
def chopReturn (v : JsString) : JsString := if v.getLast? = some 0x0d then v.dropLast else v

/-- What is before the first `=` of a line. -/
def nameOf (l : JsString) : JsString := l.takeWhile (· ≠ 0x3d)

/-- What is behind it. -/
def behind (l : JsString) : JsString := l.drop ((nameOf l).length + 1)

/-- `v.replace(/^(['"])(.*)\1$/, "$2")` -/
def unquoteOne (v : JsString) : JsString := if v.head? = some 0x27 then unquote 0x27 v else unquote 0x22 v

/-- What `.` does not match. -/
def isLineEnd (u : UInt16) : Bool := u == 0x0a || u == 0x0d || u == 0x2028 || u == 0x2029

/-- `[A-Z_][A-Z0-9_]*` -/
def isUpperName (k : JsString) : Bool :=
  k.head?.any (fun u => unitIn 'A' 'Z' u || u == 0x5f) && k.all fun u => unitIn 'A' 'Z' u || unitIn '0' '9' u || u == 0x5f

/-- `text.split(/\r?\n/)` -/
def returnLines (text : JsString) : List JsString :=
  (split 0x0a text).dropLast.map chopReturn ++ (split 0x0a text).getLast?.toList

/-- A line that `/^([A-Z_][A-Z0-9_]*)=(.*)$/` matches. -/
def hubEntry (l : JsString) : Option (JsString × JsString) :=
  if 0x3d ∈ l ∧ isUpperName (nameOf l) ∧ (behind l).any isLineEnd = false then some (nameOf l, unquoteOne (behind l)) else none

/-- `readEnvFile`, as the assignments it makes. -/
def readEnvFile (text : JsString) : List (JsString × JsString) := (returnLines text).filterMap hubEntry

/-- What `IFS='=' read -r k v` puts into `v`, of what is behind the first `=`: without a `=` that ends it, when there is
no other. -/
def lastField (v : JsString) : JsString := if v.getLast? = some 0x3d ∧ 0x3d ∉ v.dropLast then v.dropLast else v

def AGENT_NAMES : List JsString :=
  [js "INTERVAL", js "DISKS", js "NET_IFACE", js "STAT_TIMEOUT", js "WAIT_SECONDS", js "HUB_HEADERS", js "HUB_CA_FILE",
    js "HTTPS_PROXY", js "HTTP_PROXY", js "NO_PROXY", js "https_proxy", js "http_proxy", js "no_proxy", js "LOG_LEVEL"]

/-- The patterns of `load_agent_env`, and its `^[A-Za-z_]+$`. -/
def isAgentName (k : JsString) : Bool :=
  (AGENT_NAMES.contains k || ((js "COLLECT_").isPrefixOf k && (k.drop 8).head?.any (unitIn 'A' 'Z'))) &&
    !k.isEmpty && k.all fun u => unitIn 'A' 'Z' u || unitIn 'a' 'z' u || u == 0x5f

def agentEntry (l : JsString) : Option (JsString × JsString) :=
  if isAgentName (nameOf l) then some (nameOf l, unquoteOne (chopReturn (lastField (behind l)))) else none

/-- `load_agent_env`, as the variables it exports. -/
def loadAgentEnv (text : JsString) : List (JsString × JsString) := (textLines text).filterMap agentEntry

/-- How a value is written. -/
inductive Form
  | bare | single | double
  deriving DecidableEq

def Form.text (f : Form) (w : JsString) : JsString :=
  match f with
  | bare => w
  | single => 0x27 :: w ++ [0x27]
  | double => 0x22 :: w ++ [0x22]

/-- A value without line ends, and without quotes of its own. -/
def IsPlain (w : JsString) : Prop := w.any isLineEnd = false ∧ unquote 0x27 w = w ∧ unquote 0x22 w = w

instance (w : JsString) : Decidable (IsPlain w) := inferInstanceAs (Decidable (_ ∧ _))

/-- A `=` ends the value, and there is no other. -/
def EndsInOnly (w : JsString) : Prop := w.getLast? = some 0x3d ∧ 0x3d ∉ w.dropLast

instance (w : JsString) : Decidable (EndsInOnly w) := inferInstanceAs (Decidable (_ ∧ _))

private theorem nameOf_keyLine {k : JsString} (hk : 0x3d ∉ k) (v : JsString) :
    nameOf (keyLine k v) = k ∧ behind (keyLine k v) = v := by
  have hname : nameOf (keyLine k v) = k := by
    have hall : ∀ u ∈ k, decide (u ≠ 0x3d) = true := by
      intro u hu
      rw [decide_eq_true_eq]
      rintro rfl
      exact hk hu
    rw [nameOf, keyLine, List.takeWhile_append_of_pos hall, List.takeWhile_cons_of_neg (by decide), List.append_nil]
  rw [behind, hname, drop_keyLine]
  exact ⟨rfl, rfl⟩

private theorem isKeyLine_imp {k l : JsString} (hk : 0x3d ∉ k) (h : isKeyLine k l = true) : nameOf l = k := by
  obtain ⟨v, rfl⟩ := isKeyLine_iff.1 h
  exact (nameOf_keyLine hk v).1

private theorem unquote_quoted (q : UInt16) (w : JsString) : unquote q (q :: w ++ [q]) = w := by
  have hlast : (q :: w ++ [q]).getLast? = some q := List.getLast?_concat ..
  have hlen : 2 ≤ (q :: w ++ [q]).length := by simp
  rw [unquote, if_pos ⟨hlen, rfl, hlast⟩]
  simp

private theorem unquote_of_head {q : UInt16} {v : JsString} (h : v.head? ≠ some q) : unquote q v = v :=
  if_neg fun hq => h hq.2.1

/-- One pair of quotes is taken off by every reader. -/
private theorem unquoteOne_text (f : Form) {w : JsString} (hw : IsPlain w) : unquoteOne (f.text w) = w := by
  cases f with
  | bare =>
    show unquoteOne w = w
    rw [unquoteOne]
    split
    · exact hw.2.1
    · exact hw.2.2
  | single =>
    show unquoteOne (0x27 :: w ++ [0x27]) = w
    have hhead : (0x27 :: w ++ [0x27] : JsString).head? = some 0x27 := rfl
    rw [unquoteOne, if_pos hhead, unquote_quoted]
  | double =>
    show unquoteOne (0x22 :: w ++ [0x22]) = w
    have hhead : (0x22 :: w ++ [0x22] : JsString).head? ≠ some 0x27 := by simp
    rw [unquoteOne, if_neg hhead, unquote_quoted]

private theorem notMem_text {f : Form} {w : JsString} (hw : w.any isLineEnd = false) :
    (f.text w).any isLineEnd = false := by
  have hends : isLineEnd 0x27 = false ∧ isLineEnd 0x22 = false := by decide
  cases f with
  | bare => exact hw
  | single => simp [Form.text, hw, hends]
  | double => simp [Form.text, hw, hends]

private theorem clean_text (f : Form) {w cr : JsString} (hw : IsPlain w) (hcr : cr = [] ∨ cr = [0x0d]) :
    clean (f.text w ++ cr) = w := by
  have hfree : ∀ v : JsString, v.any isLineEnd = false → v.filter (· ≠ 0x0d) = v := by
    intro v hv
    rw [List.filter_eq_self]
    intro u hu
    rw [decide_eq_true_eq]
    rintro rfl
    have := List.any_eq_false.1 hv _ hu
    exact this (by decide)
  have hfilter : (f.text w ++ cr).filter (· ≠ 0x0d) = f.text w := by
    rw [List.filter_append, hfree _ (notMem_text hw.1)]
    rcases hcr with rfl | rfl
    · exact List.append_nil _
    · exact List.append_nil _
  rw [clean, hfilter]
  cases f with
  | bare => show unquote 0x22 (unquote 0x27 w) = w; rw [hw.2.1, hw.2.2]
  | single => show unquote 0x22 (unquote 0x27 (0x27 :: w ++ [0x27])) = w; rw [unquote_quoted, hw.2.2]
  | double =>
    show unquote 0x22 (unquote 0x27 (0x22 :: w ++ [0x22])) = w
    rw [@unquote_of_head 0x27 (0x22 :: w ++ [0x22]) (by simp), unquote_quoted]

/-- The last entry of a name, among lines of which none behind is an entry of it. -/
private theorem last_filterMap {entry : JsString → Option (JsString × JsString)} {k : JsString} {as bs : List JsString}
    (hbs : ∀ l ∈ bs, ∀ e, entry l = some e → e.1 ≠ k) {l w : JsString} (hl : entry l = some (k, w)) :
    last ((as ++ l :: bs).filterMap entry) k = some w := by
  have hnone : k ∉ (bs.filterMap entry).map Prod.fst := by
    rw [List.mem_map]
    rintro ⟨e, he, hk⟩
    obtain ⟨x, hx, hxe⟩ := List.mem_filterMap.1 he
    exact hbs x hx e hxe hk
  rw [List.filterMap_append, List.filterMap_cons_some hl, last_append, last_cons, last_eq_none hnone, if_pos rfl]
  rfl

private theorem chopReturn_of_ne {v : JsString} (h : 0x0d ∉ v) : chopReturn v = v :=
  if_neg fun hlast => h (List.mem_of_getLast? hlast)

private theorem chopReturn_append (v : JsString) : chopReturn (v ++ [0x0d]) = v := by
  rw [chopReturn, if_pos (List.getLast?_concat ..), List.dropLast_concat]

/-- A line with a `=` has its name, with or without a carriage return at its end. -/
private theorem nameOf_chopReturn {l : JsString} (h : 0x3d ∈ chopReturn l) : nameOf (chopReturn l) = nameOf l := by
  by_cases hlast : l.getLast? = some 0x0d
  · have hl : l = chopReturn l ++ [0x0d] := by
      rw [chopReturn, if_pos hlast]
      exact (List.dropLast_append_getLast? _ hlast).symm
    generalize chopReturn l = v at h hl
    subst hl
    have hshort : ¬ (v.takeWhile (· ≠ 0x3d)).length = v.length := by
      intro hlen
      have hall := List.takeWhile_eq_self_iff.1 ((List.takeWhile_sublist _).eq_of_length hlen) _ h
      exact absurd hall (by decide)
    rw [nameOf, nameOf, List.takeWhile_append, if_neg hshort]
  · rw [chopReturn, if_neg hlast]

private theorem unquoteOne_sublist (v : JsString) : (unquoteOne v).Sublist v := by
  unfold unquoteOne
  split
  · exact unquote_sublist _ v
  · exact unquote_sublist _ v

private theorem notMem_of_any {u : UInt16} {v : JsString} (hu : isLineEnd u = true) (hv : v.any isLineEnd = false) :
    u ∉ v :=
  fun h => List.any_eq_false.1 hv u h hu

/-- What the agent makes of a value: what was written, but for a `=` that it takes for the end of a field. -/
private theorem agentValue_iff (f : Form) {w cr : JsString} (hw : IsPlain w) (hcr : cr = [] ∨ cr = [0x0d]) :
    unquoteOne (chopReturn (lastField (f.text w ++ cr))) = w ↔ ¬ (f = .bare ∧ cr = [] ∧ EndsInOnly w) := by
  have hfree : ∀ f : Form, 0x0d ∉ f.text w := fun f => notMem_of_any (by decide) (notMem_text hw.1)
  have hkeep : ∀ v : JsString, v.getLast? ≠ some 0x3d → lastField v = v := fun v hv => if_neg fun h => hv h.1
  rcases hcr with rfl | rfl
  · rw [List.append_nil]
    cases f with
    | bare =>
      show unquoteOne (chopReturn (lastField w)) = w ↔ _
      by_cases hend : EndsInOnly w
      · refine iff_of_false (fun h => ?_) fun h => h ⟨rfl, rfl, hend⟩
        have hcut : lastField w = w.dropLast := if_pos hend
        have hno : 0x0d ∉ w.dropLast := fun h => hfree .bare (List.mem_of_mem_dropLast h)
        rw [hcut, chopReturn_of_ne hno] at h
        have hlen := (unquoteOne_sublist w.dropLast).length_le
        have hpos : 0 < w.length := List.length_pos_of_mem (List.mem_of_getLast? hend.1)
        rw [h, List.length_dropLast] at hlen
        omega
      · have hsame : lastField w = w := if_neg hend
        have hno : 0x0d ∉ w := hfree .bare
        rw [hsame, chopReturn_of_ne hno]
        exact iff_of_true (unquoteOne_text .bare hw) fun h => hend h.2.2
    | single =>
      have hlast : (Form.single.text w).getLast? ≠ some 0x3d := by
        show (0x27 :: w ++ [0x27] : JsString).getLast? ≠ some 0x3d
        rw [List.getLast?_concat]
        decide
      rw [hkeep _ hlast, chopReturn_of_ne (hfree .single)]
      exact iff_of_true (unquoteOne_text .single hw) (by simp)
    | double =>
      have hlast : (Form.double.text w).getLast? ≠ some 0x3d := by
        show (0x22 :: w ++ [0x22] : JsString).getLast? ≠ some 0x3d
        rw [List.getLast?_concat]
        decide
      rw [hkeep _ hlast, chopReturn_of_ne (hfree .double)]
      exact iff_of_true (unquoteOne_text .double hw) (by simp)
  · have hlast : (f.text w ++ [0x0d]).getLast? ≠ some 0x3d := by
      rw [List.getLast?_concat]
      decide
    rw [hkeep _ hlast, chopReturn_append]
    exact iff_of_true (unquoteOne_text f hw) (by simp)

/-- A line without a name of `k` is no entry of it. -/
private theorem hubEntry_ne {k l : JsString} (h : nameOf l ≠ k) (e : JsString × JsString)
    (he : hubEntry (chopReturn l) = some e) : e.1 ≠ k := by
  unfold hubEntry at he
  split at he
  · rename_i hl
    rw [← Option.some.inj he]
    dsimp only
    rwa [nameOf_chopReturn hl.1]
  · cases he

private theorem agentEntry_ne {k l : JsString} (h : nameOf l ≠ k) (e : JsString × JsString)
    (he : agentEntry l = some e) :
    e.1 ≠ k := by
  unfold agentEntry at he
  split at he
  · rw [← Option.some.inj he]
    exact h
  · cases he

private theorem hubEntry_keyLine {k : JsString} (hk : IsName k) (hupper : isUpperName k = true) (f : Form)
    {w cr : JsString}
    (hw : IsPlain w) (hcr : cr = [] ∨ cr = [0x0d]) (hkr : 0x0d ∉ k) :
    hubEntry (chopReturn (keyLine k (f.text w ++ cr))) = some (k, w) := by
  have hchop : chopReturn (keyLine k (f.text w ++ cr)) = keyLine k (f.text w) := by
    rcases hcr with rfl | rfl
    · rw [List.append_nil]
      refine chopReturn_of_ne ?_
      rw [keyLine, List.mem_append, List.mem_cons]
      rintro (h | h | h)
      · exact hkr h
      · exact absurd h (by decide)
      · exact notMem_of_any (by decide) (notMem_text hw.1) h
    · have happ : keyLine k (f.text w ++ [0x0d]) = keyLine k (f.text w) ++ [0x0d] := by simp [keyLine]
      rw [happ, chopReturn_append]
  obtain ⟨hname, hbehind⟩ := nameOf_keyLine hk.notMem.1 (f.text w)
  have hmem : 0x3d ∈ keyLine k (f.text w) := List.mem_append_right k List.mem_cons_self
  rw [hchop, hubEntry, hname, hbehind, if_pos ⟨hmem, hupper, notMem_text hw.1⟩, unquoteOne_text f hw]

/-- **Three readers.**  A value that is written plainly, or between one pair of quotes, on the last line of its name, is
read alike by `env_get` and `readEnvFile`, with or without a carriage return.  `load_agent_env` reads it too, exactly when
no `=` ends it that is its only one. -/
theorem readers_agree {as bs : List JsString} {k w cr : JsString} (f : Form) (hlines : ∀ l ∈ as ++ bs, 0x0a ∉ l)
    (hk : IsName k) (hlast : ∀ l ∈ bs, nameOf l ≠ k) (hw : IsPlain w) (hcr : cr = [] ∨ cr = [0x0d]) :
    envGet (unlines (as ++ keyLine k (f.text w ++ cr) :: bs)) k = w ∧
      (isUpperName k = true → last (readEnvFile (unlines (as ++ keyLine k (f.text w ++ cr) :: bs))) k = some w) ∧
      (isAgentName k = true → (last (loadAgentEnv (unlines (as ++ keyLine k (f.text w ++ cr) :: bs))) k = some w ↔
        ¬ (f = .bare ∧ cr = [] ∧ EndsInOnly w))) := by
  have hline : 0x0a ∉ keyLine k (f.text w ++ cr) := by
    rw [keyLine, List.mem_append, List.mem_cons, List.mem_append]
    rintro (h | h | h | h)
    · exact hk.notMem.2.2 h
    · exact absurd h (by decide)
    · exact notMem_of_any (by decide) (notMem_text hw.1) h
    · rcases hcr with rfl | rfl
      · exact absurd h List.not_mem_nil
      · exact absurd h (by decide)
  have hall : ∀ l ∈ as ++ keyLine k (f.text w ++ cr) :: bs, 0x0a ∉ l := by
    intro l hl
    rcases List.mem_append.1 hl with hl | hl
    · exact hlines l (List.mem_append_left bs hl)
    · rcases List.mem_cons.1 hl with rfl | hl
      · exact hline
      · exact hlines l (List.mem_append_right as hl)
  refine ⟨?_, fun hupper => ?_, fun hagent => ?_⟩
  · have hnone : bs.any (isKeyLine k) = false := by
      rw [List.any_eq_false]
      exact fun l hl hkey => hlast l hl (isKeyLine_imp hk.notMem.1 hkey)
    have hvalue : valueOf k (as ++ keyLine k (f.text w ++ cr) :: bs) = some (f.text w ++ cr) := by
      have hnil : bs.filter (isKeyLine k) = [] := by
        rw [List.filter_eq_nil_iff]
        exact List.any_eq_false.1 hnone
      rw [valueOf, List.filter_append, List.filter_cons_of_pos (isKeyLine_keyLine k _), hnil, List.getLast?_concat,
        Option.map_some, drop_keyLine]
    rw [envGet, textLines_unlines hall, hvalue, Option.getD_some, clean_text f hw hcr]
  · have hkr : 0x0d ∉ k := by
      intro h
      simp only [isUpperName, Bool.and_eq_true, List.all_eq_true] at hupper
      exact absurd (hupper.2 _ h) (by decide)
    have hmap : returnLines (unlines (as ++ keyLine k (f.text w ++ cr) :: bs)) =
        as.map chopReturn ++ chopReturn (keyLine k (f.text w ++ cr)) :: (bs.map chopReturn ++ [[]]) := by
      rw [returnLines, split_unlines hall, List.dropLast_concat, List.getLast?_concat]
      simp
    rw [readEnvFile, hmap]
    refine last_filterMap (fun l hl e he => ?_) (hubEntry_keyLine hk hupper f hw hcr hkr)
    rcases List.mem_append.1 hl with hl | hl
    · obtain ⟨x, hx, rfl⟩ := List.mem_map.1 hl
      exact hubEntry_ne (hlast x hx) e he
    · rw [List.mem_singleton.1 hl] at he
      cases he
  · obtain ⟨hname, hbehind⟩ := nameOf_keyLine hk.notMem.1 (f.text w ++ cr)
    have hentry : agentEntry (keyLine k (f.text w ++ cr)) =
        some (k, unquoteOne (chopReturn (lastField (f.text w ++ cr)))) := by
      rw [agentEntry, hname, hbehind, if_pos hagent]
    rw [loadAgentEnv, textLines_unlines hall,
      last_filterMap (fun l hl e he => agentEntry_ne (hlast l hl) e he) hentry, Option.some_inj]
    exact agentValue_iff f hw hcr

/-- A header with a secret in base64. -/
theorem header_not_read :
    envGet (unlines ([] ++ keyLine (js "HUB_HEADERS") (Form.bare.text (js "Authorization: Basic dTpwYXM=") ++ []) :: []))
        (js "HUB_HEADERS") = js "Authorization: Basic dTpwYXM=" ∧
      (isUpperName (js "HUB_HEADERS") = true →
        last (readEnvFile (unlines ([] ++ keyLine (js "HUB_HEADERS")
          (Form.bare.text (js "Authorization: Basic dTpwYXM=") ++ []) :: []))) (js "HUB_HEADERS") =
          some (js "Authorization: Basic dTpwYXM=")) ∧
      (isAgentName (js "HUB_HEADERS") = true →
        (last (loadAgentEnv (unlines ([] ++ keyLine (js "HUB_HEADERS")
            (Form.bare.text (js "Authorization: Basic dTpwYXM=") ++ []) :: []))) (js "HUB_HEADERS") =
            some (js "Authorization: Basic dTpwYXM=") ↔
          ¬ (Form.bare = .bare ∧ ([] : JsString) = [] ∧ EndsInOnly (js "Authorization: Basic dTpwYXM=")))) :=
  readers_agree .bare (fun l hl => absurd hl List.not_mem_nil) (by decide +kernel) (fun l hl => absurd hl List.not_mem_nil)
    (by decide +kernel) (Or.inl rfl)

/-! ### Credentials -/

/-- `[[:space:]]` -/
def isShellSpace (u : UInt16) : Bool := u == 0x20 || (0x09 ≤ u.toNat && u.toNat ≤ 0x0d)

/-- `^[^[:space:]/@]+(/[^[:space:]@]*)?$`, behind the scheme of a hub's URL. -/
def isHubPlace (s : JsString) : Bool := s.head?.any (· != 0x2f) && s.all fun u => !isShellSpace u && u != 0x40

/-- `^https?://..$`, without `user:password@`. -/
def isHubUrl (url : JsString) : Bool :=
  ((js "http://").isPrefixOf url && isHubPlace (url.drop 7)) || ((js "https://").isPrefixOf url && isHubPlace (url.drop 8))

/-- `${v%/}` -/
def chopSlash (v : JsString) : JsString := if v.getLast? = some 0x2f then v.dropLast else v

/-- What `pair` of the agent and `localAgentEnv` of the hub write. -/
def written (url id secret : JsString) : JsString :=
  unlines [keyLine (js "HUB_URL") url, keyLine (js "NODE_ID") id, keyLine (js "NODE_SECRET") secret]

def credential (l : JsString) : Option (JsString × JsString) := some (nameOf l, chopReturn (lastField (behind l)))

/-- `load_credentials`: the hub's URL, the node and its secret. -/
def loadCredentials (text : JsString) : Option (JsString × JsString × JsString) :=
  let es := (textLines text).filterMap credential
  let url := chopSlash ((last es (js "HUB_URL")).getD [])
  let id := (last es (js "NODE_ID")).getD []
  let secret := (last es (js "NODE_SECRET")).getD []
  if isHubUrl url && isNodeId id && isHex64 secret then some (url, id, secret) else none

private theorem all_isHubPlace {s : JsString} (h : isHubPlace s = true) : ∀ u ∈ s, isShellSpace u = false := by
  intro u hu
  simp only [isHubPlace, Bool.and_eq_true, List.all_eq_true, Bool.not_eq_true'] at h
  exact (h.2 u hu).1

/-- A hub's URL has no blank. -/
private theorem all_isHubUrl {url : JsString} (h : isHubUrl url = true) : ∀ u ∈ url, isShellSpace u = false := by
  have hscheme : ∀ {p : JsString}, p.all (fun u => !isShellSpace u) = true → p.isPrefixOf url = true →
      isHubPlace (url.drop p.length) = true → ∀ u ∈ url, isShellSpace u = false := by
    intro p hp hprefix hplace u hu
    obtain ⟨t, rfl⟩ := List.isPrefixOf_iff_prefix.1 hprefix
    rw [List.drop_left] at hplace
    rcases List.mem_append.1 hu with hu | hu
    · simpa using List.all_eq_true.1 hp u hu
    · exact all_isHubPlace hplace u hu
  rw [isHubUrl, Bool.or_eq_true, Bool.and_eq_true, Bool.and_eq_true] at h
  rcases h with h | h
  · exact hscheme (by decide +kernel) h.1 h.2
  · exact hscheme (by decide +kernel) h.1 h.2

/-- The three credentials are read on their own lines. -/
private theorem last_written {url id secret : JsString} (hurl : 0x0a ∉ url) (hid : 0x0a ∉ id)
    (hsecret : 0x0a ∉ secret) :
    last ((textLines (written url id secret)).filterMap credential) (js "HUB_URL") = some (chopReturn (lastField url)) ∧
      last ((textLines (written url id secret)).filterMap credential) (js "NODE_ID") = some (chopReturn (lastField id)) ∧
      last ((textLines (written url id secret)).filterMap credential) (js "NODE_SECRET") =
        some (chopReturn (lastField secret)) := by
  have hnames : ∀ k ∈ [js "HUB_URL", js "NODE_ID", js "NODE_SECRET"], IsName k := by decide +kernel
  have hne : js "HUB_URL" ≠ js "NODE_ID" ∧ js "HUB_URL" ≠ js "NODE_SECRET" ∧ js "NODE_ID" ≠ js "NODE_SECRET" := by
    decide +kernel
  have hline : ∀ k ∈ [js "HUB_URL", js "NODE_ID", js "NODE_SECRET"], ∀ v : JsString, 0x0a ∉ v → 0x0a ∉ keyLine k v := by
    intro k hk v hv h
    rw [keyLine, List.mem_append, List.mem_cons] at h
    rcases h with h | h | h
    · exact (hnames k hk).notMem.2.2 h
    · exact absurd h (by decide)
    · exact hv h
  have hcredential : ∀ k ∈ [js "HUB_URL", js "NODE_ID", js "NODE_SECRET"], ∀ v : JsString,
      credential (keyLine k v) = some (k, chopReturn (lastField v)) := by
    intro k hk v
    obtain ⟨hname, hbehind⟩ := nameOf_keyLine (hnames k hk).notMem.1 v
    rw [credential, hname, hbehind]
  have hlines : textLines (written url id secret) =
      [keyLine (js "HUB_URL") url, keyLine (js "NODE_ID") id, keyLine (js "NODE_SECRET") secret] := by
    refine textLines_unlines fun l hl => ?_
    simp only [List.mem_cons, List.not_mem_nil, or_false] at hl
    rcases hl with rfl | rfl | rfl
    · exact hline _ (by simp) url hurl
    · exact hline _ (by simp) id hid
    · exact hline _ (by simp) secret hsecret
  rw [hlines, List.filterMap_cons_some (hcredential _ (by simp) url), List.filterMap_cons_some (hcredential _ (by simp) id),
    List.filterMap_cons_some (hcredential _ (by simp) secret), List.filterMap_nil]
  refine ⟨?_, ?_, ?_⟩
  · simp [last_cons, hne.1.symm, hne.2.1.symm]
  · simp [last_cons, hne.1, hne.2.2.symm]
  · simp [last_cons, hne.2.1, hne.2.2]

/-- A value without `=` and carriage return is read as it is. -/
private theorem chopReturn_lastField {v : JsString} (heq : 0x3d ∉ v) (hcr : 0x0d ∉ v) :
    chopReturn (lastField v) = v := by
  have hsame : lastField v = v := if_neg fun h => heq (List.mem_of_getLast? h.1)
  rw [hsame, chopReturn_of_ne hcr]

private theorem notMem_nodeId {id : JsString} (h : isNodeId id = true) : 0x3d ∉ id ∧ 0x0d ∉ id ∧ 0x0a ∉ id := by
  simp only [isNodeId, Bool.and_eq_true, List.all_eq_true] at h
  exact ⟨fun hm => absurd (h.2 _ hm) (by decide), fun hm => absurd (h.2 _ hm) (by decide),
    fun hm => absurd (h.2 _ hm) (by decide)⟩

private theorem notMem_hex64 {secret : JsString} (h : isHex64 secret = true) :
    0x3d ∉ secret ∧ 0x0d ∉ secret ∧ 0x0a ∉ secret := by
  simp only [isHex64, Bool.and_eq_true, List.all_eq_true] at h
  exact ⟨fun hm => absurd (h.2 _ hm) (by decide), fun hm => absurd (h.2 _ hm) (by decide),
    fun hm => absurd (h.2 _ hm) (by decide)⟩

private theorem length_chopSlash_le (url : JsString) : (chopSlash url).length ≤ url.length := by
  unfold chopSlash
  split
  · rw [List.length_dropLast]
    omega
  · exact le_rfl

private theorem loadCredentials_url_iff {url id secret : JsString} (hid : isNodeId id = true)
    (hsecret : isHex64 secret = true) (hurl : isHubUrl url = true) :
    loadCredentials (written url id secret) = some (url, id, secret) ↔ url.getLast? ≠ some 0x2f ∧ ¬ EndsInOnly url := by
  obtain ⟨hid1, hid2, hid3⟩ := notMem_nodeId hid
  obtain ⟨hs1, hs2, hs3⟩ := notMem_hex64 hsecret
  have hfree : ∀ u, isShellSpace u = true → u ∉ url := by
    intro u hu hmem
    rw [all_isHubUrl hurl u hmem] at hu
    cases hu
  obtain ⟨h1, h2, h3⟩ := last_written (hfree 0x0a (by decide)) hid3 hs3
  rw [chopReturn_lastField hid1 hid2] at h2
  rw [chopReturn_lastField hs1 hs2] at h3
  unfold loadCredentials
  simp only [h1, h2, h3, Option.getD_some, hid, hsecret, Bool.and_true]
  by_cases hend : EndsInOnly url
  · -- the `=` is gone, and what is left is shorter
    refine iff_of_false (fun h => ?_) fun h => h.2 hend
    have hcut : lastField url = url.dropLast := if_pos hend
    have hno : 0x0d ∉ url.dropLast := fun h => hfree 0x0d (by decide) (List.mem_of_mem_dropLast h)
    rw [hcut, chopReturn_of_ne hno] at h
    split at h
    · have hsame : chopSlash url.dropLast = url := congrArg Prod.fst (Option.some.inj h)
      have hlen := length_chopSlash_le url.dropLast
      have hpos : 0 < url.length := List.length_pos_of_mem (List.mem_of_getLast? hend.1)
      rw [hsame, List.length_dropLast] at hlen
      omega
    · cases h
  · have hkeep : lastField url = url := if_neg hend
    rw [hkeep, chopReturn_of_ne (hfree 0x0d (by decide))]
    by_cases hslash : url.getLast? = some 0x2f
    · refine iff_of_false (fun h => ?_) fun h => h.1 hslash
      have hcut : chopSlash url = url.dropLast := if_pos hslash
      rw [hcut] at h
      split at h
      · have hsame : url.dropLast = url := congrArg Prod.fst (Option.some.inj h)
        have hpos : 0 < url.length := List.length_pos_of_mem (List.mem_of_getLast? hslash)
        have hlen := congrArg List.length hsame
        rw [List.length_dropLast] at hlen
        omega
      · cases h
    · have hcut : chopSlash url = url := if_neg hslash
      rw [hcut, if_pos hurl]
      exact iff_of_true rfl ⟨hslash, hend⟩

private theorem isHubUrl_local {port : JsString} (hport : ∀ u ∈ port, 0x30 ≤ u.toNat ∧ u.toNat ≤ 0x39) :
    isHubUrl (js "http://127.0.0.1:" ++ port) = true := by
  have hplace : isHubPlace (js "127.0.0.1:" ++ port) = true := by
    have hhost : (js "127.0.0.1:").all (fun u => !isShellSpace u && u != 0x40) = true := by decide +kernel
    have hhead : (js "127.0.0.1:" ++ port).head?.any (· != 0x2f) = true := by
      rw [List.head?_append_of_ne_nil _ (by decide)]
      decide +kernel
    rw [isHubPlace, hhead, List.all_append, hhost, Bool.true_and, Bool.true_and, List.all_eq_true]
    intro u hu
    have h := hport u hu
    have hspace : isShellSpace u = false := by
      have hblank : u ≠ 0x20 := by
        rintro rfl
        exact absurd h.1 (by decide)
      simp only [isShellSpace, Bool.or_eq_false_iff, beq_eq_false_iff_ne, Bool.and_eq_false_iff, decide_eq_false_iff_not]
      exact ⟨hblank, Or.inr (by omega)⟩
    have hat : u ≠ 0x40 := by
      rintro rfl
      exact absurd h.2 (by decide)
    rw [hspace, Bool.not_false, Bool.true_and, bne_iff_ne]
    exact hat
  have hsplit : js "http://127.0.0.1:" = js "http://" ++ js "127.0.0.1:" := by decide +kernel
  have hseven : (js "http://").length = 7 := by decide +kernel
  have hprefix : (js "http://").isPrefixOf (js "http://" ++ (js "127.0.0.1:" ++ port)) = true :=
    List.isPrefixOf_iff_prefix.2 (List.prefix_append _ _)
  rw [hsplit, List.append_assoc, isHubUrl, hprefix, List.drop_left' hseven, hplace]
  rfl

/-- **Credentials.**  What a join or a link saves, for a URL, a node and a secret that it takes, the agent loads as it is,
exactly when no slash ends the URL, and no `=` that is its only one.  What the hub writes for the local agent, with any
port, it always does. -/
theorem loadCredentials_written {id secret : JsString} (hid : isNodeId id = true) (hsecret : isHex64 secret = true) :
    (∀ url, isHubUrl url = true → (loadCredentials (written url id secret) = some (url, id, secret) ↔
      url.getLast? ≠ some 0x2f ∧ ¬ EndsInOnly url)) ∧
    ∀ port : JsString, port ≠ [] → port.all (unitIn '0' '9') = true →
      loadCredentials (written (js "http://127.0.0.1:" ++ port) id secret) =
        some (js "http://127.0.0.1:" ++ port, id, secret) := by
  refine ⟨fun url hurl => loadCredentials_url_iff hid hsecret hurl, fun port hne hport => ?_⟩
  have hdigit : ∀ u ∈ port, 0x30 ≤ u.toNat ∧ u.toNat ≤ 0x39 := by
    intro u hu
    exact unitIn_iff.1 (List.all_eq_true.1 hport u hu)
  have hlast : ∀ u : UInt16, u.toNat < 0x30 ∨ 0x39 < u.toNat → (js "http://127.0.0.1:" ++ port).getLast? ≠ some u := by
    intro u hu h
    rw [List.getLast?_append_of_ne_nil _ hne] at h
    have := hdigit u (List.mem_of_getLast? h)
    omega
  exact (loadCredentials_url_iff hid hsecret (isHubUrl_local hdigit)).2
    ⟨hlast 0x2f (by decide), fun h => hlast 0x3d (by decide) h.1⟩

theorem local_credentials :
    (∀ url, isHubUrl url = true → (loadCredentials (written url (js "aaaaaaaaaaaa") (List.replicate 64 0x30)) =
        some (url, js "aaaaaaaaaaaa", List.replicate 64 0x30) ↔ url.getLast? ≠ some 0x2f ∧ ¬ EndsInOnly url)) ∧
    ∀ port : JsString, port ≠ [] → port.all (unitIn '0' '9') = true →
      loadCredentials (written (js "http://127.0.0.1:" ++ port) (js "aaaaaaaaaaaa") (List.replicate 64 0x30)) =
        some (js "http://127.0.0.1:" ++ port, js "aaaaaaaaaaaa", List.replicate 64 0x30) :=
  loadCredentials_written (by decide +kernel) (by decide +kernel)

end EnvFile

end Servitals
