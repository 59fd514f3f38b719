import Servitals.ChannelSecrets

/-!
# Channels saved again

`setConfig`, `view` and the load at the start of `hub/lib/notify.js`: the file that is written, and what the page is
given, with `********` for the secrets.

The written file is read back as it was.  The view, posted back without an edit, gives the saved config if and only if no
channel that shows `********` has its type in a list: the check takes the type of a list of one string, but finds no saved
channel of that type, since two lists are never the same (`unedited`).
-/

namespace Servitals

namespace Channels

/-! ### The config as JSON -/

/-- The settings of a channel, each as it is written. -/
def configJson (write : JsString → JsString → JsString) (config : OMap JsString JsString) : Json :=
  .obj (config.entries.map fun e => (e.1, .str (write e.1 e.2)))

/-- A channel by its names; `digest` only when it is off. -/
def SavedChannel.fields (c : SavedChannel) (config : Json) : List (JsString × Option Json) := [
  (js "id", some (.str c.id)),
  (js "type", some c.type),
  (js "name", some (.str c.name)),
  (js "min", some (.str c.min)),
  (js "on", some (.bool c.on)),
  (js "digest", if c.digest then none else some (.bool false)),
  (js "config", some config)]

def channelJson (write : SavedChannel → JsString → JsString → JsString) (c : SavedChannel) : Json :=
  .obj (Json.clean (c.fields (configJson (write c) c.config)))

def quietJson (quiet : Option (Json × Json)) : Json :=
  (quiet.map fun q => .obj [(js "from", q.1), (js "to", q.2)]).getD .null

/-- The members of a config. -/
def configMembers (write : SavedChannel → JsString → JsString → JsString) (s : SavedConfig) : List (JsString × Json) := [
  (js "channels", .arr (s.channels.map (channelJson write))),
  (js "quiet", quietJson s.quiet),
  (js "digestAt", s.digestAt)]

def asIs (_ : SavedChannel) (_ v : JsString) : JsString := v

/-- What `setConfig` writes. -/
def fileJson (s : SavedConfig) : Json := .obj (configMembers asIs s)

/-! ### The page's view -/

/-- Does the page see `********` in the place of a setting? -/
def isHidden (c : SavedChannel) (k v : JsString) : Bool :=
  ((adapterOf (some c.type)).any fun ad => ad.fields.any fun f => f.key == k && f.secret) && !isEnvRef v

/-- `mask` -/
def mask (c : SavedChannel) (k v : JsString) : JsString := if isHidden c k v then SECRET else v

/-- What the page is told of a field. -/
def Field.toJson (f : Field) : Json :=
  .obj (Json.clean [
    (js "key", some (.str f.key)),
    (js "secret", some (.bool f.secret)),
    (js "optional", some (.bool f.optional)),
    (js "choices", f.choices.map fun c => .arr (c.map .str))])

/-- `view`; `ignored` is what was wrong with the file, if anything was. -/
def view (s : SavedConfig) (status : List (JsString × Json)) (ignored : JsString) : Json :=
  .obj (configMembers mask s ++ [(js "status", .obj status)] ++
    (if ignored = [] then [] else [(js "ignored", .str ignored)]) ++
    [(js "types", .obj (ADAPTERS.map fun ad => (ad.type, .arr (ad.fields.map Field.toJson))))])

/-- The config before anything is saved. -/
def noConfig : SavedConfig := ⟨[], none, .str (js "07:00")⟩

/-- The configs that the check accepts: read at a start, or posted. -/
inductive Saved (httpUrl : JsString → Bool) : SavedConfig → Prop
  | first : Saved httpUrl noConfig
  | accepted {old s : SavedConfig} {input : Json} (hold : Saved httpUrl old)
      (h : checkChannels httpUrl input old = .ok s) : Saved httpUrl s

/-! ### What the check knows of a saved channel -/

/-- A stored value of a field, or none. -/
def SettingSound (httpUrl : JsString → Bool) (f : Field) : Option JsString → Prop
  | none => f.optional = true
  | some v => v ≠ [] ∧ v.length ≤ 2048 ∧ hasControl v = false ∧ (f.secret = true → v ≠ SECRET) ∧
      (isEnvRef v = true ∨ (v.head? ≠ some 0x24 ∧ fieldError httpUrl f v = none))

structure ChannelSound (httpUrl : JsString → Bool) (ad : Adapter) (c : SavedChannel) : Prop where
  id : isChannelId c.id = true
  type : adapterOf (some c.type) = some ad
  name : trim c.name = c.name ∧ c.name ≠ [] ∧ c.name.length ≤ 60 ∧ hasControl c.name = false
  min : SEV.contains c.min = true
  setting : ∀ f ∈ ad.fields, SettingSound httpUrl f (c.config.get? f.key)
  order : c.config.keys.Sublist (ad.fields.map Field.key)
  works : ((ad.check.filter fun _ => !c.config.values.any isEnvRef).bind fun check => check c.config) = none

structure ConfigSound (httpUrl : JsString → Bool) (s : SavedConfig) : Prop where
  length : s.channels.length ≤ 20
  once : (s.channels.map SavedChannel.id).Nodup
  channel : ∀ c ∈ s.channels, ∃ ad, ChannelSound httpUrl ad c
  quiet : ∀ q, s.quiet = some q → isTimeValue (some q.1) = true ∧ isTimeValue (some q.2) = true ∧ same q.1 q.2 = false
  digestAt : isTimeValue (some s.digestAt) = true

variable {httpUrl : JsString → Bool} {cfg : Json} {fields : List Field} {was : Option SavedChannel} {label : JsString}
  {f : Field} {w : Option JsString}

/-! ### One field -/

/-- What the check does with a value that is not masked, or that a masked one stands for. -/
private theorem settingSound_of_check (h : checkField httpUrl fields cfg was label f = .ok w)
    (hwas : ∀ was₀, was = some was₀ → f.secret = true → was₀.config.get? f.key ≠ some SECRET) :
    SettingSound httpUrl f w := by
  unfold checkField at h
  split at h
  · cases h
  · dsimp only at h
    -- a value that is not masked is not `********`, and neither is a saved one
    have hnot : ∀ v, (if isMasked cfg f then (kept fields cfg was f.key).map Json.str else cfg.get f.key) =
        some (.str v) → f.secret = true → v ≠ SECRET := by
      rintro v hv hsecret rfl
      by_cases hmask : isMasked cfg f = true
      · rw [if_pos hmask] at hv
        obtain ⟨s, hs, hsv⟩ := Option.map_eq_some_iff.1 hv
        obtain ⟨was₀, hwas₀, hkept⟩ := Option.bind_eq_some_iff.1 hs
        split at hkept
        · cases hkept
        · rw [Json.str.inj hsv] at hkept
          exact hwas was₀ hwas₀ hsecret hkept
      · rw [if_neg hmask] at hv
        refine hmask ?_
        unfold isMasked
        rw [hv, hsecret]
        rfl
    generalize (if isMasked cfg f then (kept fields cfg was f.key).map Json.str else cfg.get f.key) = v at h hnot
    split at h
    · split at h <;> cases h
      assumption
    · split at h <;> cases h
      assumption
    · rename_i v hne
      split at h
      · cases h
      · rename_i hlen
        split at h
        · cases h
        · rename_i hdollar
          rw [Bool.or_eq_true, not_or, decide_eq_true_eq, not_lt, Bool.not_eq_true] at hlen
          have hv : v ≠ [] := by
            rintro rfl
            exact hne rfl
          split at h
          · rename_i henv
            cases h
            exact ⟨hv, hlen.1, hlen.2, hnot v rfl, Or.inl henv⟩
          · rename_i henv
            split at h <;> cases h
            rename_i herror
            refine ⟨hv, hlen.1, hlen.2, hnot v rfl, Or.inr ⟨fun hhead => hdollar ⟨hhead, ?_⟩, herror⟩⟩
            simpa using henv
    · cases h

/-- A sound value is stored as it is: where it is shown, and where its mask stands for it. -/
private theorem checkField_of_sound (hsound : SettingSound httpUrl f w)
    (h : (isMasked cfg f = false ∧ cfg.get f.key = w.map .str) ∨
      (isMasked cfg f = true ∧ w.isSome = true ∧ kept fields cfg was f.key = w)) :
    checkField httpUrl fields cfg was label f = .ok w := by
  have hvalue : (if isMasked cfg f then (kept fields cfg was f.key).map Json.str else cfg.get f.key) = w.map .str ∧
      (isMasked cfg f && (kept fields cfg was f.key).isNone) = false := by
    rcases h with ⟨hmask, hget⟩ | ⟨hmask, hsome, hkept⟩
    · rw [hmask, if_neg Bool.false_ne_true, hget]
      exact ⟨rfl, rfl⟩
    · rw [hmask, if_pos rfl, hkept]
      cases w with
      | none => cases hsome
      | some v => exact ⟨rfl, rfl⟩
  unfold checkField
  dsimp only
  rw [hvalue.1, hvalue.2, if_neg Bool.false_ne_true]
  cases w with
  | none => exact if_pos hsound
  | some v =>
    obtain ⟨hne, hlen, hcontrol, -, hrest⟩ := hsound
    cases v with
    | nil => exact absurd rfl hne
    | cons u v =>
      have hshort : ¬ (decide (2048 < (u :: v).length) || hasControl (u :: v)) = true := by
        rw [hcontrol, Bool.or_false, decide_eq_true_eq]
        omega
      simp only [Option.map_some]
      rw [if_neg hshort]
      rcases hrest with henv | ⟨hhead, herror⟩
      · rw [if_neg (by rw [henv]; simp), if_pos henv]
      · rw [if_neg fun hdollar => hhead hdollar.1]
        split
        · rfl
        · rw [herror]

/-! ### The settings of a channel -/

private theorem checkFields_isOk {fs : List Field} {m : OMap JsString JsString}
    (h : ∀ f ∈ fs, checkField httpUrl fields cfg was label f = .ok (m.get? f.key)) (c : OMap JsString JsString) :
    ∃ c', checkFields httpUrl fields cfg was label fs c = .ok c' := by
  induction fs generalizing c with
  | nil => exact ⟨c, rfl⟩
  | cons f fs ih =>
    rw [List.forall_mem_cons] at h
    rw [checkFields, h.1]
    exact ih h.2 _

/-- The settings are stored in the order of the fields. -/
private theorem checkFields_keys {fs : List Field} {c c' : OMap JsString JsString} (hnodup : (fs.map Field.key).Nodup)
    (hfresh : ∀ f ∈ fs, c.get? f.key = none) (h : checkFields httpUrl fields cfg was label fs c = .ok c') :
    c'.keys.Sublist (c.keys ++ fs.map Field.key) := by
  induction fs generalizing c with
  | nil =>
    cases h
    exact List.sublist_append_left _ _
  | cons f fs ih =>
    rw [List.map_cons, List.nodup_cons] at hnodup
    rw [List.forall_mem_cons] at hfresh
    rw [checkFields] at h
    cases hf : checkField httpUrl fields cfg was label f with
    | error e =>
      rw [hf] at h
      cases h
    | ok w =>
      rw [hf] at h
      cases w with
      | none => exact (ih hnodup.2 hfresh.2 h).trans (List.Sublist.append_left (List.sublist_cons_self _ _) _)
      | some v =>
        have hkeys : (c.set f.key v).keys = c.keys ++ [f.key] := by
          rw [OMap.keys, OMap.entries_set_of_none hfresh.1, List.map_append]
          rfl
        have hrest : ∀ g ∈ fs, (c.set f.key v).get? g.key = none := by
          intro g hg
          have hne : g.key ≠ f.key := by
            intro hkey
            exact hnodup.1 (hkey ▸ List.mem_map_of_mem hg)
          rw [OMap.get?_set_of_ne c hne]
          exact hfresh.2 g hg
        have hsub := ih hnodup.2 hrest h
        rwa [hkeys, List.append_assoc] at hsub

private theorem checkSettings_eq_ok {ad : Adapter} {config : OMap JsString JsString} :
    checkSettings httpUrl ad cfg was label = .ok config ↔
      checkFields httpUrl ad.fields cfg was label ad.fields .empty = .ok config ∧
        ((ad.check.filter fun _ => !config.values.any isEnvRef).bind fun check => check config) = none := by
  unfold checkSettings
  cases checkFields httpUrl ad.fields cfg was label ad.fields .empty with
  | error e => exact iff_of_false (fun h => by cases h) fun h => by cases h.1
  | ok c =>
    dsimp only [bind, Except.bind]
    constructor
    · intro h
      split at h
      · cases h
      · cases h
        exact ⟨rfl, ‹_›⟩
    · rintro ⟨h, hworks⟩
      cases h
      rw [hworks]

/-- When each field is stored as it is, so are the settings. -/
private theorem checkSettings_of_sound {ad : Adapter} {c : SavedChannel} (hc : ChannelSound httpUrl ad c)
    (h : ∀ f ∈ ad.fields, checkField httpUrl ad.fields cfg was label f = .ok (c.config.get? f.key)) :
    checkSettings httpUrl ad cfg was label = .ok c.config := by
  have hnodup := keys_nodup (adapterOf_mem hc.type)
  obtain ⟨c', hc'⟩ := checkFields_isOk h .empty
  obtain ⟨hrest, hfields⟩ := checkFields_ok hnodup hc'
  have horder : c'.keys.Sublist (ad.fields.map Field.key) := checkFields_keys hnodup (fun _ _ => rfl) hc'
  have hsame : ∀ k, c'.get? k = c.config.get? k := by
    intro k
    by_cases hk : k ∈ ad.fields.map Field.key
    · obtain ⟨f, hf, rfl⟩ := List.mem_map.1 hk
      have hstored := hfields f hf rfl
      rw [h f hf] at hstored
      exact (Except.ok.inj hstored).symm
    · have hnone : c.config.get? k = none := by
        rw [← Option.not_isSome_iff_eq_none, Option.isSome_iff_exists, ← OMap.mem_keys_iff]
        exact fun hmem => hk (hc.order.subset hmem)
      rw [hrest k hk, hnone]
      rfl
  obtain rfl := OMap.ext_of_sublist hnodup horder hc.order hsame
  exact checkSettings_eq_ok.2 ⟨hc', hc.works⟩

/-! ### One channel -/

private theorem checkHead_eq_ok {ch : Json} {ids : List JsString} {id name : JsString} {ad : Adapter} :
    checkHead ch label ids = .ok (id, ad, name) ↔ ch.get (js "id") = some (.str id) ∧ isChannelId id = true ∧ id ∉ ids ∧
      adapterOf (ch.get (js "type")) = some ad ∧ ch.get (js "name") = some (.str name) ∧ trim name ≠ [] ∧
      name.length ≤ 60 ∧ hasControl name = false := by
  unfold checkHead
  constructor
  · intro h
    split at h
    · rename_i id' hid
      split at h
      · cases h
      · rename_i hvalid
        split at h
        · cases h
        · rename_i hlisted
          split at h
          · cases h
          · rename_i had
            split at h
            · rename_i hname
              split at h
              · cases h
              · rename_i hnot
                cases h
                simp only [not_or, not_lt, Bool.not_eq_true] at hnot
                exact ⟨hid, by simpa using hvalid, by simpa using hlisted, had, hname, hnot⟩
            · cases h
    · cases h
  · rintro ⟨hid, hvalid, hlisted, had, hname, hnot⟩
    have hwrong : ¬ (trim name = [] ∨ 60 < name.length ∨ hasControl name = true) := by
      rw [not_or, not_or, not_lt, Bool.not_eq_true]
      exact hnot
    rw [hid]
    dsimp only
    rw [if_neg (by simpa using hvalid), if_neg (by simpa using hlisted), had, hname]
    exact if_neg hwrong

private theorem checkChannel_eq_ok {old : SavedConfig} {ch : Json} {i : ℕ} {ids : List JsString} {c : SavedChannel} :
    checkChannel httpUrl old ch i ids = .ok c ↔ ch.isObj = true ∧ ∃ ad name,
      checkHead ch (labelOf ch i) ids = .ok (c.id, ad, name) ∧ c.type = (ch.get (js "type")).getD .null ∧
      c.name = trim name ∧ ch.get (js "min") = some (.str c.min) ∧ SEV.contains c.min = true ∧
      ch.get (js "on") = some (.bool c.on) ∧
      (ch.get (js "digest") = none ∧ c.digest = true ∨ ch.get (js "digest") = some (.bool c.digest)) ∧
      checkSettings httpUrl ad (configOf ch) (savedAs old c.id c.type) (labelOf ch i) = .ok c.config := by
  unfold checkChannel
  constructor
  · intro h
    split at h
    · cases h
    · rename_i hobj
      refine ⟨by simpa using hobj, ?_⟩
      dsimp only at h
      cases hhead : checkHead ch (labelOf ch i) ids with
      | error e =>
        rw [hhead] at h
        cases h
      | ok head =>
        obtain ⟨id, ad, name⟩ := head
        rw [hhead] at h
        dsimp only [bind, Except.bind] at h
        split at h
        · rename_i hmin
          split at h
          · cases h
          · rename_i hsev
            rw [Bool.not_eq_true, Bool.not_eq_false'] at hsev
            cases hsettings : checkSettings httpUrl ad (configOf ch)
                (savedAs old id ((ch.get (js "type")).getD .null)) (labelOf ch i) with
            | error e =>
              rw [hsettings] at h
              split at h <;> cases h
            | ok config =>
              rw [hsettings] at h
              split at h
              · rename_i hon hdigest
                cases h
                exact ⟨ad, name, rfl, rfl, rfl, hmin, hsev, hon, Or.inl ⟨hdigest, by rw [hdigest]; rfl⟩, hsettings⟩
              · rename_i b hon hdigest
                cases h
                refine ⟨ad, name, rfl, rfl, rfl, hmin, hsev, hon, Or.inr ?_, hsettings⟩
                rw [hdigest]
                cases b <;> rfl
              · cases h
              · cases h
        · cases h
  · rintro ⟨hobj, ad, name, hhead, htype, hname, hmin, hsev, hon, hdigest, hsettings⟩
    obtain ⟨id, type, cname, min, on, digest, config⟩ := c
    dsimp only at *
    subst htype hname
    rw [if_neg (by simpa using hobj), hhead, hmin]
    dsimp only [bind, Except.bind]
    rw [if_neg (by simpa using hsev), hon, hsettings]
    rcases hdigest with ⟨hdigest, rfl⟩ | hdigest
    · rw [hdigest]
      rfl
    · rw [hdigest]
      cases digest <;> rfl

private theorem eq_of_same {x y : Json} (h : same x y = true) : x = y := by
  cases x <;> cases y <;> simp_all [same]

private theorem same_self_of_string {x : Json} (h : isString (some x) = true) : same x x = true := by
  cases x with
  | str s => exact same_str.2 rfl
  | null => cases h
  | bool b => cases h
  | num x => cases h
  | arr xs => cases h
  | obj m => cases h

/-- The type of a saved channel is a string, or a list that is the same as no other. -/
private theorem isString_of_same {ad : Adapter} {x y : Json} (had : adapterOf (some y) = some ad)
    (h : same x y = true) :
    isString (some y) = true := by
  obtain rfl := eq_of_same h
  cases x with
  | str s => rfl
  | null => cases had
  | bool b => cases had
  | num x => cases had
  | arr xs => cases h
  | obj m => cases had

/-- An accepted channel, when no saved secret is `********`. -/
private theorem channelSound_of_check {old : SavedConfig} {ch : Json} {i : ℕ} {ids : List JsString} {c : SavedChannel}
    (hold : ConfigSound httpUrl old) (h : checkChannel httpUrl old ch i ids = .ok c) :
    c.id ∉ ids ∧ ∃ ad, ChannelSound httpUrl ad c := by
  obtain ⟨-, ad, name, hhead, htype, hname, -, hsev, -, -, hsettings⟩ := checkChannel_eq_ok.1 h
  obtain ⟨-, hid, hnew, had, -, hne, hlen, hcontrol⟩ := checkHead_eq_ok.1 hhead
  have had' : adapterOf (some c.type) = some ad := by
    obtain ⟨t, ht, -⟩ := Option.bind_eq_some_iff.1 had
    obtain ⟨type, hget, -⟩ := Option.bind_eq_some_iff.1 ht
    rw [htype, hget, Option.getD_some, ← hget, had]
  have hmem := adapterOf_mem had'
  have hsub := trim_sublist name
  have hwas : ∀ was₀, savedAs old c.id c.type = some was₀ → ∀ f ∈ ad.fields, f.secret = true →
      was₀.config.get? f.key ≠ some SECRET := by
    intro was₀ hwas₀ f hf hsecret hget
    have hfound := List.find?_some hwas₀
    rw [Bool.and_eq_true] at hfound
    obtain ⟨ad', hsound⟩ := hold.channel was₀ (List.mem_of_find?_eq_some hwas₀)
    have hsame : ad' = ad := by
      have htype' := hsound.type
      rw [eq_of_same hfound.2, had'] at htype'
      exact (Option.some.inj htype').symm
    subst hsame
    have hsetting := hsound.setting f hf
    rw [hget] at hsetting
    exact hsetting.2.2.2.1 hsecret rfl
  refine ⟨hnew, ad, ?_⟩
  exact {
    id := hid
    type := had'
    name := by
      rw [hname]
      refine ⟨trim_trim name, hne, hsub.length_le.trans hlen, ?_⟩
      unfold hasControl at hcontrol ⊢
      rw [List.any_eq_false] at hcontrol ⊢
      exact fun u hu => hcontrol u (hsub.subset hu)
    min := hsev
    setting := fun f hf => settingSound_of_check (checkSettings_ok hmem hsettings f hf) fun was₀ hwas₀ hsecret =>
      hwas was₀ hwas₀ f hf hsecret
    order := checkFields_keys (keys_nodup hmem) (fun _ _ => rfl) (checkSettings_eq_ok.1 hsettings).1
    works := (checkSettings_eq_ok.1 hsettings).2 }

/-! ### The whole config -/

theorem of_checkEach {old : SavedConfig} (hold : ConfigSound httpUrl old) {chs : List Json} {i : ℕ}
    {ids : List JsString} {cs : List SavedChannel} (h : checkEach httpUrl old chs i ids = .ok cs) :
    cs.length = chs.length ∧ (cs.map SavedChannel.id).Nodup ∧ (∀ c ∈ cs, c.id ∉ ids) ∧
      ∀ c ∈ cs, ∃ ad, ChannelSound httpUrl ad c := by
  induction chs generalizing i ids cs with
  | nil =>
    cases h
    exact ⟨rfl, List.nodup_nil, by simp, by simp⟩
  | cons ch chs ih =>
    rw [checkEach] at h
    cases hc : checkChannel httpUrl old ch i ids with
    | error e =>
      rw [hc] at h
      cases h
    | ok c =>
      rw [hc] at h
      dsimp only [bind, Except.bind] at h
      cases hrest : checkEach httpUrl old chs (i + 1) (ids ++ [c.id]) with
      | error e =>
        rw [hrest] at h
        cases h
      | ok cs' =>
        rw [hrest] at h
        cases h
        obtain ⟨hlen, hnodup, hnew, hall⟩ := ih hrest
        obtain ⟨hid, hsound⟩ := channelSound_of_check hold hc
        refine ⟨congrArg (· + 1) hlen, ?_, ?_, ?_⟩
        · rw [List.map_cons, List.nodup_cons]
          refine ⟨fun hmem => ?_, hnodup⟩
          obtain ⟨c', hc', hsame⟩ := List.mem_map.1 hmem
          exact hnew c' hc' (List.mem_append_right _ (List.mem_singleton.2 hsame))
        · rw [List.forall_mem_cons]
          exact ⟨hid, fun c' hc' hmem => hnew c' hc' (List.mem_append_left _ hmem)⟩
        · rw [List.forall_mem_cons]
          exact ⟨hsound, hall⟩

/-- Channels that are each stored as they are, are stored as they are. -/
private theorem checkEach_map {old : SavedConfig} {g : SavedChannel → Json} {cs : List SavedChannel}
    (h : ∀ c ∈ cs, ∀ i ids, c.id ∉ ids → checkChannel httpUrl old (g c) i ids = .ok c)
    (hnodup : (cs.map SavedChannel.id).Nodup) (i : ℕ) (ids : List JsString) (hids : ∀ c ∈ cs, c.id ∉ ids) :
    checkEach httpUrl old (cs.map g) i ids = .ok cs := by
  induction cs generalizing i ids with
  | nil => rfl
  | cons c cs ih =>
    rw [List.forall_mem_cons] at h hids
    rw [List.map_cons, List.nodup_cons] at hnodup
    have hrest : ∀ c' ∈ cs, c'.id ∉ ids ++ [c.id] := by
      intro c' hc' hmem
      rcases List.mem_append.1 hmem with hmem | hmem
      · exact hids.2 c' hc' hmem
      · exact hnodup.1 (List.mem_map.2 ⟨c', hc', List.mem_singleton.1 hmem⟩)
    rw [List.map_cons, checkEach, h.1 i ids hids.1]
    dsimp only [bind, Except.bind]
    rw [ih h.2 hnodup.2 (i + 1) _ hrest]
    rfl

private theorem of_checkQuiet {v : Option Json} {quiet : Option (Json × Json)} (h : checkQuiet v = .ok quiet)
    (q : Json × Json)
    (hq : quiet = some q) : isTimeValue (some q.1) = true ∧ isTimeValue (some q.2) = true ∧ same q.1 q.2 = false := by
  have hvalue : ∀ w : Option Json, isTimeValue w = true → isTimeValue (some (w.getD .null)) = true := by
    intro w hw
    cases w with
    | none => cases hw
    | some w => exact hw
  subst hq
  unfold checkQuiet at h
  split at h
  · cases h
  · cases h
  · split at h
    · cases h
    · rename_i hnot
      cases h
      simp only [Bool.or_eq_true, not_or, Bool.not_eq_true, Bool.not_eq_false'] at hnot
      exact ⟨hvalue _ hnot.1.1.2, hvalue _ hnot.1.2, hnot.2⟩

private theorem checkQuiet_quietJson {quiet : Option (Json × Json)} (h : ∀ q, quiet = some q →
    isTimeValue (some q.1) = true ∧ isTimeValue (some q.2) = true ∧ same q.1 q.2 = false) :
    checkQuiet (some (quietJson quiet)) = .ok quiet := by
  cases quiet with
  | none => rfl
  | some q =>
    obtain ⟨hstart, hend, hother⟩ := h q rfl
    have hne : js "from" ≠ js "to" := by decide
    simp [checkQuiet, quietJson, Json.isObj, Json.member_cons, hne, hstart, hend, hother]

private theorem configSound_noConfig : ConfigSound httpUrl noConfig where
  length := Nat.zero_le _
  once := List.nodup_nil
  channel := fun c hc => absurd hc List.not_mem_nil
  quiet := fun q hq => by cases hq
  digestAt := rfl

/-- What the check accepts is sound. -/
private theorem configSound_of_check {old s : SavedConfig} {input : Json} (hold : ConfigSound httpUrl old)
    (h : checkChannels httpUrl input old = .ok s) : ConfigSound httpUrl s := by
  unfold checkChannels at h
  split at h
  · rename_i chs hchs
    split at h
    · cases h
    · rename_i hlen
      cases heach : checkEach httpUrl old chs 0 [] with
      | error e =>
        rw [heach] at h
        cases h
      | ok cs =>
        rw [heach] at h
        dsimp only [bind, Except.bind] at h
        cases hquiet : checkQuiet (input.get (js "quiet")) with
        | error e =>
          rw [hquiet] at h
          cases h
        | ok quiet =>
          rw [hquiet] at h
          dsimp only at h
          split at h
          · cases h
          · rename_i hdigest
            cases h
            obtain ⟨hlen', hnodup, -, hall⟩ := of_checkEach hold heach
            exact ⟨by rw [hlen']; omega, hnodup, hall, of_checkQuiet hquiet, by simpa using hdigest⟩
  · cases h

theorem Saved.sound {s : SavedConfig} (h : Saved httpUrl s) : ConfigSound httpUrl s := by
  induction h with
  | first => exact configSound_noConfig
  | accepted _ h ih => exact configSound_of_check ih h

/-! ### Saving what was saved -/

theorem get_configJson (write : JsString → JsString → JsString) (config : OMap JsString JsString) (k : JsString) :
    (configJson write config).get k = (config.get? k).map fun v => .str (write k v) := by
  have hfind : ∀ es : List (JsString × JsString), Json.member (es.map fun e => (e.1, Json.str (write e.1 e.2))) k =
      ((es.find? fun e => e.1 = k).map Prod.snd).map fun v => .str (write k v) := by
    intro es
    induction es with
    | nil => rfl
    | cons e es ih =>
      rw [List.map_cons, Json.member_cons]
      by_cases hk : e.1 = k
      · rw [if_pos hk, List.find?_cons_of_pos (by simpa using hk), ← hk]
        rfl
      · rw [if_neg hk, List.find?_cons_of_neg (by simpa using hk), ih]
  exact hfind config.entries

private theorem fields_nodup (c : SavedChannel) (config : Json) : ((c.fields config).map Prod.fst).Nodup := by
  have hnames : (c.fields config).map Prod.fst =
      [js "id", js "type", js "name", js "min", js "on", js "digest", js "config"] := rfl
  rw [hnames]
  decide

private theorem get_channelJson {write : SavedChannel → JsString → JsString → JsString} {c : SavedChannel}
    {k : JsString}
    {v : Option Json} (h : (k, v) ∈ c.fields (configJson (write c) c.config)) : (channelJson write c).get k = v :=
  Json.member_clean (fields_nodup c _) h

private theorem configOf_channelJson (write : SavedChannel → JsString → JsString → JsString) (c : SavedChannel) :
    configOf (channelJson write c) = configJson (write c) c.config := by
  have hget : (channelJson write c).get (js "config") = some (configJson (write c) c.config) :=
    get_channelJson (by simp [SavedChannel.fields])
  rw [configOf, hget]
  rfl

/-- A channel as it is written is stored as it is when its settings are. -/
private theorem checkChannel_channelJson {write : SavedChannel → JsString → JsString → JsString} {old : SavedConfig}
    {ad : Adapter} {c : SavedChannel} (hc : ChannelSound httpUrl ad c)
    (h : ∀ f ∈ ad.fields, ∀ label, checkField httpUrl ad.fields (configJson (write c) c.config)
      (savedAs old c.id c.type) label f = .ok (c.config.get? f.key)) {i : ℕ} {ids : List JsString} (hid : c.id ∉ ids) :
    checkChannel httpUrl old (channelJson write c) i ids = .ok c := by
  have hget : ∀ e ∈ c.fields (configJson (write c) c.config), (channelJson write c).get e.1 = e.2 :=
    fun e he => get_channelJson he
  simp only [SavedChannel.fields, List.forall_mem_cons] at hget
  obtain ⟨hgid, htype, hname, hmin, hon, hdigest, -, -⟩ := hget
  have hhead : checkHead (channelJson write c) (labelOf (channelJson write c) i) ids = .ok (c.id, ad, c.name) := by
    refine checkHead_eq_ok.2 ⟨hgid, hc.id, hid, ?_, hname, ?_, hc.name.2.2⟩
    · rw [htype, hc.type]
    · rw [hc.name.1]
      exact hc.name.2.1
  refine checkChannel_eq_ok.2 ⟨rfl, ad, c.name, hhead, ?_, hc.name.1.symm, hmin, hc.min, hon, ?_, ?_⟩
  · rw [htype, Option.getD_some]
  · rw [hdigest]
    cases c.digest
    · exact Or.inr rfl
    · exact Or.inl ⟨rfl, rfl⟩
  · rw [configOf_channelJson]
    exact checkSettings_of_sound hc fun f hf => h f hf _

/-- A config as it is written is stored as it is when the settings of its channels are. -/
private theorem checkChannels_members {write : SavedChannel → JsString → JsString → JsString} {s old : SavedConfig}
    (hs : ConfigSound httpUrl s) {input : Json} (hinput : ∀ e ∈ configMembers write s, input.get e.1 = some e.2)
    (h : ∀ c ∈ s.channels, ∀ ad, ChannelSound httpUrl ad c → ∀ f ∈ ad.fields, ∀ label,
      checkField httpUrl ad.fields (configJson (write c) c.config) (savedAs old c.id c.type) label f =
        .ok (c.config.get? f.key)) :
    checkChannels httpUrl input old = .ok s := by
  simp only [configMembers, List.forall_mem_cons] at hinput
  obtain ⟨hchannels, hquiet, hdigest, -⟩ := hinput
  have hlen : ¬ 20 < (s.channels.map (channelJson write)).length := by
    have hle := hs.length
    rw [List.length_map]
    omega
  have heach : checkEach httpUrl old (s.channels.map (channelJson write)) 0 [] = .ok s.channels := by
    refine checkEach_map (fun c hc i ids hid => ?_) hs.once 0 [] fun c _ => List.not_mem_nil
    obtain ⟨ad, hsound⟩ := hs.channel c hc
    exact checkChannel_channelJson hsound (h c hc ad hsound) hid
  unfold checkChannels
  rw [hchannels, hquiet, hdigest]
  dsimp only
  rw [if_neg hlen, heach, checkQuiet_quietJson hs.quiet]
  exact if_neg (by simp [hs.digestAt])

/-- No saved secret is `********`. -/
private theorem not_masked {v : JsString} (h : SettingSound httpUrl f (some v)) :
    (f.secret && same (.str v) (.str SECRET)) = false := by
  by_cases hsecret : f.secret = true
  · have hne : ¬ same (.str v) (.str SECRET) = true := by
      rw [same_str]
      exact fun hmask => h.2.2.2.1 hsecret (Json.str.inj hmask)
    rw [hsecret, Bool.true_and]
    simpa using hne
  · have hshown : f.secret = false := by simpa using hsecret
    rw [hshown, Bool.false_and]

/-- The file that was written is read as it was saved. -/
private theorem checkChannels_fileJson {s : SavedConfig} (hs : ConfigSound httpUrl s) :
    checkChannels httpUrl (fileJson s) noConfig = .ok s := by
  have hmembers : ∀ e ∈ configMembers asIs s, (fileJson s).get e.1 = some e.2 := by
    simp only [configMembers, List.forall_mem_cons]
    exact ⟨rfl, rfl, rfl, by simp⟩
  refine checkChannels_members hs hmembers fun c _ ad hc f hf label => ?_
  have hsound := hc.setting f hf
  have hget : (configJson (asIs c) c.config).get f.key = (c.config.get? f.key).map .str := get_configJson ..
  refine checkField_of_sound hsound (Or.inl ⟨?_, hget⟩)
  unfold isMasked
  rw [hget]
  cases hvalue : c.config.get? f.key with
  | none => rw [Option.map_none, Option.any_none, Bool.and_false]
  | some v =>
    rw [hvalue] at hsound
    exact not_masked hsound

/-! ### The view, posted back -/

/-- Does the page see `********` in the channel? -/
def hides (c : SavedChannel) : Bool := c.config.entries.any fun e => isHidden c e.1 e.2

/-- Is its type a string, or does it show all of its settings? -/
def comesBack (c : SavedChannel) : Bool := isString (some c.type) || !hides c

private theorem isHidden_eq {ad : Adapter} {c : SavedChannel} (hc : ChannelSound httpUrl ad c) {f : Field}
    (hf : f ∈ ad.fields)
    (v : JsString) : isHidden c f.key v = (f.secret && !isEnvRef v) := by
  have hsecret : (ad.fields.any fun g => g.key == f.key && g.secret) = f.secret := by
    rw [Bool.eq_iff_iff, List.any_eq_true]
    constructor
    · rintro ⟨g, hg, hsame⟩
      rw [Bool.and_eq_true, beq_iff_eq] at hsame
      obtain rfl := List.inj_on_of_nodup_map (keys_nodup (adapterOf_mem hc.type)) hg hf hsame.1
      exact hsame.2
    · intro hsecret
      exact ⟨f, hf, by rw [hsecret, beq_self_eq_true]; rfl⟩
  rw [isHidden, hc.type, Option.any_some, hsecret]

/-- The channel that is saved under an id. -/
private theorem savedAs_self {s : SavedConfig} (hs : ConfigSound httpUrl s) {c : SavedChannel} (hc : c ∈ s.channels)
    (htype : isString (some c.type) = true) : savedAs s c.id c.type = some c := by
  have hfound : (savedAs s c.id c.type).isSome = true := by
    unfold savedAs
    rw [List.find?_isSome]
    refine ⟨c, hc, ?_⟩
    rw [beq_self_eq_true, same_self_of_string htype]
    rfl
  obtain ⟨x, hx⟩ := Option.isSome_iff_exists.1 hfound
  have hsame := List.find?_some hx
  rw [Bool.and_eq_true, beq_iff_eq] at hsame
  rw [hx, List.inj_on_of_nodup_map hs.once (List.mem_of_find?_eq_some hx) hc hsame.1]

/-- The addresses that the page is shown come back as they are. -/
private theorem not_moved {ad : Adapter} {c : SavedChannel} (hc : ChannelSound httpUrl ad c) :
    moved ad.fields (configJson (mask c) c.config) c = false := by
  unfold moved
  rw [List.any_eq_false]
  intro f hf
  rw [get_configJson]
  by_cases hsecret : f.secret = true
  · simp [hsecret]
  · have hshown : ∀ v, mask c f.key v = v := by
      intro v
      rw [mask, isHidden_eq hc hf]
      simp [hsecret]
    simp only [hshown]
    have hself : ∀ w : Option JsString, same (orEmpty (w.map .str)) (orEmpty (w.map .str)) = true := by
      intro w
      cases w with
      | none => rfl
      | some v => exact same_str.2 rfl
    rw [hself]
    simp

/-- A setting that comes back from the page is stored as it is saved. -/
private theorem checkField_view {s : SavedConfig} (hs : ConfigSound httpUrl s) {c : SavedChannel}
    (hmem : c ∈ s.channels)
    (hback : comesBack c = true) {ad : Adapter} (hc : ChannelSound httpUrl ad c) (hf : f ∈ ad.fields) :
    checkField httpUrl ad.fields (configJson (mask c) c.config) (savedAs s c.id c.type) label f =
      .ok (c.config.get? f.key) := by
  have hsound := hc.setting f hf
  refine checkField_of_sound hsound ?_
  unfold isMasked
  rw [get_configJson]
  cases hvalue : c.config.get? f.key with
  | none => exact Or.inl ⟨by rw [Option.map_none, Option.any_none, Bool.and_false], rfl⟩
  | some v =>
    rw [hvalue] at hsound
    rw [Option.map_some, Option.any_some, mask]
    by_cases hhidden : isHidden c f.key v = true
    · rw [if_pos hhidden]
      have hsecret : f.secret = true := by
        rw [isHidden_eq hc hf, Bool.and_eq_true] at hhidden
        exact hhidden.1
      have htype : isString (some c.type) = true := by
        have hhides : hides c = true := List.any_eq_true.2 ⟨(f.key, v), OMap.mem_entries_iff.2 hvalue, hhidden⟩
        rw [comesBack, hhides] at hback
        simpa using hback
      refine Or.inr ⟨by rw [hsecret, same_str.2 rfl]; rfl, rfl, ?_⟩
      rw [kept, savedAs_self hs hmem htype, Option.bind_some, if_neg (by rw [not_moved hc]; simp), hvalue]
    · rw [if_neg hhidden]
      exact Or.inl ⟨not_masked hsound, rfl⟩

/-- The view is stored as the saved config when every channel comes back. -/
private theorem checkChannels_view {s : SavedConfig} (hs : ConfigSound httpUrl s)
    (h : ∀ c ∈ s.channels, comesBack c = true)
    (status : List (JsString × Json)) (ignored : JsString) :
    checkChannels httpUrl (view s status ignored) s = .ok s := by
  have hmembers : ∀ e ∈ configMembers mask s, (view s status ignored).get e.1 = some e.2 := by
    simp only [configMembers, List.forall_mem_cons]
    exact ⟨rfl, rfl, rfl, by simp⟩
  exact checkChannels_members hs hmembers fun c hc ad hsound f hf label => checkField_view hs hc (h c hc) hsound hf

/-- A channel whose settings are masked comes back under a type that is a string. -/
private theorem comesBack_of_check {s : SavedConfig} {status : List (JsString × Json)} {ignored : JsString}
    (hs : ConfigSound httpUrl s) (h : checkChannels httpUrl (view s status ignored) s = .ok s) {c : SavedChannel}
    (hmem : c ∈ s.channels) : comesBack c = true := by
  obtain ⟨-, hall⟩ := checkChannels_ok h
  have hposted : posted (view s status ignored) = s.channels.map (channelJson mask) := rfl
  have hzip : (channelJson mask c, c) ∈ (posted (view s status ignored)).zip s.channels := by
    rw [hposted, List.zip_map_left, List.mem_map]
    refine ⟨(c, c), ?_, rfl⟩
    rw [← List.map_id s.channels, List.zip_map']
    exact List.mem_map.2 ⟨c, by simpa using hmem, rfl⟩
  obtain ⟨i, ids, hchannel⟩ := hall _ hzip
  obtain ⟨ad, hsound⟩ := hs.channel c hmem
  obtain ⟨ad', -, htype, had', hfields⟩ := checkChannel_ok hchannel
  obtain rfl : ad' = ad := by
    rw [htype, hsound.type] at had'
    exact (Option.some.inj had').symm
  unfold comesBack
  rw [Bool.or_eq_true, Bool.not_eq_true', ← Bool.not_eq_true, or_iff_not_imp_right, not_not]
  intro hhides
  obtain ⟨e, he, hhidden⟩ := List.any_eq_true.1 hhides
  obtain ⟨f, hf, hkey⟩ := List.mem_map.1 (hsound.order.subset (List.mem_map_of_mem he))
  have hvalue : c.config.get? f.key = some e.2 := by
    rw [hkey]
    exact OMap.mem_entries_iff.1 he
  rw [← hkey] at hhidden
  have hmask : isMasked (configOf (channelJson mask c)) f = true := by
    have hsecret := hhidden
    rw [isHidden_eq hsound hf, Bool.and_eq_true] at hsecret
    unfold isMasked
    rw [configOf_channelJson, get_configJson, hvalue, Option.map_some, mask, if_pos hhidden, hsecret.1]
    exact same_str.2 rfl
  obtain ⟨was, hwas, -⟩ := of_masked hmask (hfields f hf)
  have hsame := List.find?_some hwas
  rw [Bool.and_eq_true] at hsame
  exact isString_of_same hsound.type hsame.2

/-- **Saving without an edit.**  A config that the check accepts is read as it was saved at the next start, and the view
of it, posted back, gives it again, if and only if every channel that shows `********` has a string as its type. -/
theorem unedited {s : SavedConfig} (h : Saved httpUrl s) (status : List (JsString × Json)) (ignored : JsString) :
    (checkChannels httpUrl (view s status ignored) s = .ok s ∧ checkChannels httpUrl (fileJson s) noConfig = .ok s) ↔
      ∀ c ∈ s.channels, comesBack c = true := by
  have hs := h.sound
  constructor
  · rintro ⟨hview, -⟩ c hc
    exact comesBack_of_check hs hview hc
  · intro hback
    exact ⟨checkChannels_view hs hback status ignored, checkChannels_fileJson hs⟩

/-! ### A Discord channel -/

/-- The URLs below: those that begin with https:. -/
private def httpsUrl (s : JsString) : Bool := (js "https://").isPrefixOf s

private def discord (type : Json) : Json := .obj [(js "channels", .arr [.obj [
  (js "id", .str (js "ch_d")), (js "type", type), (js "name", .str (js " Discord ")), (js "min", .str (js "info")),
  (js "on", .bool true), (js "config", .obj [(js "url", .str (js "https://d.test/h"))])]])]

private def discordSaved (type : Json) : SavedConfig :=
  ⟨[⟨js "ch_d", type, js "Discord", js "info", true, true, OMap.empty.set (js "url") (js "https://d.test/h")⟩], none,
    .str (js "07:00")⟩

private theorem saved_discord : Saved httpsUrl (discordSaved (.str (js "discord"))) :=
  @Saved.accepted _ noConfig _ (discord (.str (js "discord"))) .first rfl

/-- A channel whose type is a string comes back. -/
theorem discord_unedited :
    checkChannels httpsUrl (view (discordSaved (.str (js "discord"))) [] []) (discordSaved (.str (js "discord"))) =
        .ok (discordSaved (.str (js "discord"))) ∧
      checkChannels httpsUrl (fileJson (discordSaved (.str (js "discord")))) noConfig =
        .ok (discordSaved (.str (js "discord"))) :=
  (unedited saved_discord [] []).2 fun c hc => by
    rw [List.mem_singleton.1 hc]
    rfl

/-- A channel whose type is a list of one string is accepted, and refused when the page saves it again. -/
theorem listed_type_refused :
    Saved httpsUrl (discordSaved (.arr [.str (js "discord")])) ∧
      checkChannels httpsUrl (view (discordSaved (.arr [.str (js "discord")])) [] [])
        (discordSaved (.arr [.str (js "discord")])) = .error (js "Discord: url: type it again") :=
  ⟨@Saved.accepted _ noConfig _ (discord (.arr [.str (js "discord")])) .first rfl, rfl⟩

end Channels

end Servitals
