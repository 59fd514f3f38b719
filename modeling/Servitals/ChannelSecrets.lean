import Servitals.Channels

/-!
# Where a saved secret may go

A masked secret keeps its saved value while the addresses of its channel stay; an address that is a secret itself is
not compared, so a webhook's URL can change under its masked signing secret.
-/

namespace Servitals

namespace Channels

variable {httpUrl : JsString → Bool} {cfg : Json} {fields : List Field} {was : Option SavedChannel} {label : JsString}
  {f : Field} {w : Option JsString}

/-! ### One field -/

theorem same_str {v : Json} {s : JsString} : same v (.str s) = true ↔ v = .str s := by
  cases v <;> simp [same]

/-- What is not masked is stored as it was typed. -/
private theorem of_typed (hmask : isMasked cfg f = false) (h : checkField httpUrl fields cfg was label f = .ok w) :
    (cfg.get f.key = none ∧ w = none ∧ f.optional = true) ∨ cfg.get f.key = some (.str (w.getD [])) := by
  unfold checkField at h
  simp only [hmask, Bool.false_and, Bool.false_eq_true, if_false] at h
  generalize cfg.get f.key = v at h ⊢
  split at h
  · split at h <;> cases h
    exact Or.inl ⟨rfl, rfl, ‹_›⟩
  · split at h <;> cases h
    exact Or.inr rfl
  · refine Or.inr ?_
    split at h
    · cases h
    · split at h
      · cases h
      · split at h
        · cases h
          rfl
        · split at h <;> cases h
          rfl
  · cases h

private theorem orEmpty_of_typed (hmask : isMasked cfg f = false)
    (h : checkField httpUrl fields cfg was label f = .ok w) :
    orEmpty (cfg.get f.key) = .str (w.getD []) := by
  rcases of_typed hmask h with ⟨hget, rfl, -⟩ | hget
  · rw [hget]
    rfl
  · rw [hget]
    rfl

/-- What is masked keeps its saved value, and no address that is shown has changed. -/
theorem of_masked (hmask : isMasked cfg f = true) (h : checkField httpUrl fields cfg was label f = .ok w) :
    ∃ was₀, was = some was₀ ∧ moved fields cfg was₀ = false ∧ w.getD [] = (was₀.config.get? f.key).getD [] := by
  unfold checkField at h
  simp only [hmask, Bool.true_and, if_true] at h
  cases hkept : kept fields cfg was f.key with
  | none =>
    rw [hkept] at h
    cases h
  | some s =>
    rw [hkept] at h
    obtain ⟨was₀, rfl, hs⟩ := Option.bind_eq_some_iff.1 hkept
    split at hs
    · cases hs
    · rename_i hmoved
      refine ⟨was₀, rfl, by simpa using hmoved, ?_⟩
      rw [hs]
      simp only [Option.isNone_some, Bool.false_eq_true, if_false, Option.map_some] at h
      split at h
      · rename_i hnone
        cases hnone
      · rename_i hempty
        cases hempty
        split at h <;> cases h
        rfl
      · rename_i v hv
        cases hv
        split at h
        · cases h
        · split at h
          · cases h
          · split at h
            · cases h
              rfl
            · split at h <;> cases h
              rfl
      · cases h

/-- An address that is shown stays. -/
private theorem of_not_moved {was₀ : SavedChannel} (hmoved : moved fields cfg was₀ = false) (hf : f ∈ fields)
    (haddress : (f.url || f.dest) = true) (hshown : f.secret = false) :
    orEmpty (cfg.get f.key) = .str ((was₀.config.get? f.key).getD []) := by
  unfold moved at hmoved
  rw [List.any_eq_false] at hmoved
  have h := hmoved f hf
  rw [haddress, hshown] at h
  have hsaved : orEmpty ((was₀.config.get? f.key).map .str) = .str ((was₀.config.get? f.key).getD []) := by
    cases was₀.config.get? f.key <;> rfl
  rw [hsaved] at h
  simpa [same_str] using h

/-- The stored settings are those of the fields. -/
theorem checkFields_ok {fs : List Field} {c c' : OMap JsString JsString} (hnodup : (fs.map Field.key).Nodup)
    (h : checkFields httpUrl fields cfg was label fs c = .ok c') :
    (∀ k, k ∉ fs.map Field.key → c'.get? k = c.get? k) ∧
      ∀ f ∈ fs, c.get? f.key = none → checkField httpUrl fields cfg was label f = .ok (c'.get? f.key) := by
  induction fs generalizing c with
  | nil =>
    cases h
    exact ⟨fun _ _ => rfl, fun _ hf => absurd hf List.not_mem_nil⟩
  | cons g fs ih =>
    rw [List.map_cons, List.nodup_cons] at hnodup
    rw [checkFields] at h
    cases hg : checkField httpUrl fields cfg was label g with
    | error e =>
      rw [hg] at h
      cases h
    | ok w =>
      rw [hg] at h
      obtain ⟨hrest, hfields⟩ := ih hnodup.2 h
      have hset : ∀ k, k ≠ g.key → (w.elim c (c.set g.key)).get? k = c.get? k := by
        intro k hk
        cases w with
        | none => rfl
        | some v => exact OMap.get?_set_of_ne _ hk _
      constructor
      · intro k hk
        rw [List.map_cons, List.mem_cons, not_or] at hk
        rw [hrest k hk.2, hset k hk.1]
      · intro f hf hnone
        rcases List.mem_cons.1 hf with rfl | hf
        · rw [hrest _ hnodup.1, hg]
          cases w with
          | none => rw [Option.elim_none, hnone]
          | some v => rw [Option.elim_some, OMap.get?_set_self]
        · apply hfields f hf
          rw [hset f.key, hnone]
          rintro he
          exact hnodup.1 (he ▸ List.mem_map_of_mem hf)

/-! ### One channel -/

theorem adapterOf_mem {type : Option Json} {ad : Adapter} (h : adapterOf type = some ad) : ad ∈ ADAPTERS := by
  obtain ⟨t, -, ht⟩ := Option.bind_eq_some_iff.1 h
  exact List.mem_of_find?_eq_some ht

theorem keys_nodup {ad : Adapter} (h : ad ∈ ADAPTERS) : (ad.fields.map Field.key).Nodup := by
  have hall : (ADAPTERS.all fun ad => decide (ad.fields.map Field.key).Nodup) = true := by decide +kernel
  exact of_decide_eq_true (List.all_eq_true.1 hall ad h)

/-- Only a webhook has a secret beside an address that is a secret: its signing secret beside its URL. -/
private theorem secret_address {ad : Adapter} (h : ad ∈ ADAPTERS) {f f' : Field} (hf : f ∈ ad.fields)
    (hf' : f' ∈ ad.fields)
    (hsecret : f.secret = true) (hsecret' : f'.secret = true) (haddress : (f'.url || f'.dest) = true)
    (hne : f.key ≠ f'.key) :
    ad.type = js "webhook" ∧ f.key = js "secret" ∧ f'.key = js "url" ∧ f'.optional = false := by
  have hall : (ADAPTERS.all fun ad => ad.fields.all fun f => ad.fields.all fun f' =>
      !(f.secret && f'.secret && (f'.url || f'.dest) && f.key != f'.key) ||
        (ad.type == js "webhook" && f.key == js "secret" && f'.key == js "url" && !f'.optional)) = true := by decide +kernel
  have h := List.all_eq_true.1 (List.all_eq_true.1 (List.all_eq_true.1 hall ad h) f hf) f' hf'
  rw [hsecret, hsecret', haddress, bne_iff_ne.2 hne] at h
  simpa [and_assoc] using h

private theorem webhook_fields {ad : Adapter} (h : ad ∈ ADAPTERS) (htype : ad.type = js "webhook") :
    (∃ f ∈ ad.fields, f.key = js "secret" ∧ f.secret = true) ∧
      ∃ f ∈ ad.fields, f.key = js "url" ∧ (f.url || f.dest) = true := by
  have hall : (ADAPTERS.all fun ad => ad.type != js "webhook" ||
      (ad.fields.any (fun f => f.key == js "secret" && f.secret) &&
        ad.fields.any fun f => f.key == js "url" && (f.url || f.dest))) = true := by decide +kernel
  have h := List.all_eq_true.1 hall ad h
  rw [htype] at h
  simpa [List.any_eq_true] using h

private theorem checkHead_ok {ch : Json} {ids : List JsString} {id name : JsString} {ad : Adapter}
    (h : checkHead ch label ids = .ok (id, ad, name)) :
    ch.get (js "id") = some (.str id) ∧ adapterOf (ch.get (js "type")) = some ad := by
  unfold checkHead at h
  split at h
  · rename_i id' hid
    split at h
    · cases h
    · split at h
      · cases h
      · split at h
        · cases h
        · rename_i ad' had
          split at h
          · split at h <;> cases h
            exact ⟨hid, had⟩
          · cases h
  · cases h

theorem checkSettings_ok {ad : Adapter} (had : ad ∈ ADAPTERS) {config : OMap JsString JsString}
    (h : checkSettings httpUrl ad cfg was label = .ok config) :
    ∀ f ∈ ad.fields, checkField httpUrl ad.fields cfg was label f = .ok (config.get? f.key) := by
  unfold checkSettings at h
  cases hfields : checkFields httpUrl ad.fields cfg was label ad.fields .empty with
  | error e =>
    rw [hfields] at h
    cases h
  | ok config' =>
    rw [hfields] at h
    dsimp only [bind, Except.bind] at h
    split at h <;> cases h
    exact fun f hf => (checkFields_ok (keys_nodup had) hfields).2 f hf rfl

/-- A stored channel is checked as it was posted. -/
theorem checkChannel_ok {old : SavedConfig} {ch : Json} {i : ℕ} {ids : List JsString} {c : SavedChannel}
    (h : checkChannel httpUrl old ch i ids = .ok c) : ∃ ad, ch.get (js "id") = some (.str c.id) ∧
      ch.get (js "type") = some c.type ∧ adapterOf (ch.get (js "type")) = some ad ∧
      ∀ f ∈ ad.fields, checkField httpUrl ad.fields (configOf ch) (savedAs old c.id c.type) (labelOf ch i) f =
        .ok (c.config.get? f.key) := by
  unfold checkChannel at h
  split at h
  · cases h
  · dsimp only at h
    cases hhead : checkHead ch (labelOf ch i) ids with
    | error e =>
      rw [hhead] at h
      cases h
    | ok head =>
      obtain ⟨id, ad, name⟩ := head
      rw [hhead] at h
      obtain ⟨hid, had⟩ := checkHead_ok hhead
      obtain ⟨t, ht, -⟩ := Option.bind_eq_some_iff.1 had
      obtain ⟨type, htype, -⟩ := Option.bind_eq_some_iff.1 ht
      have hstored : ∀ (c' : OMap JsString JsString → SavedChannel),
          (∀ config, (c' config).id = id ∧ (c' config).type = (ch.get (js "type")).getD .null ∧
            (c' config).config = config) →
          (checkSettings httpUrl ad (configOf ch) (savedAs old id ((ch.get (js "type")).getD .null)) (labelOf ch i)).map
            c' = .ok c →
          ch.get (js "id") = some (.str c.id) ∧ ch.get (js "type") = some c.type ∧
            adapterOf (ch.get (js "type")) = some ad ∧ ∀ f ∈ ad.fields,
              checkField httpUrl ad.fields (configOf ch) (savedAs old c.id c.type) (labelOf ch i) f =
                .ok (c.config.get? f.key) := by
        intro c' hc' h
        cases hsettings : checkSettings httpUrl ad (configOf ch) (savedAs old id ((ch.get (js "type")).getD .null))
            (labelOf ch i) with
        | error e =>
          rw [hsettings] at h
          cases h
        | ok config =>
          rw [hsettings] at h
          cases h
          obtain ⟨hid', htype', hconfig⟩ := hc' config
          rw [hid', htype', hconfig]
          refine ⟨hid, ?_, had, checkSettings_ok (adapterOf_mem had) hsettings⟩
          rw [htype]
          rfl
      dsimp only [bind, Except.bind] at h
      refine ⟨ad, ?_⟩
      split at h
      · split at h
        · cases h
        · split at h
          · exact hstored _ (fun _ => ⟨rfl, rfl, rfl⟩) h
          · exact hstored _ (fun _ => ⟨rfl, rfl, rfl⟩) h
          · cases h
          · cases h
      · cases h

/-! ### The settings -/

/-- A channel that keeps a masked secret sends to the addresses of the saved channel. -/
def Stays (old : SavedConfig) (ch : Json) (c : SavedChannel) : Prop :=
  ∀ ad, adapterOf (ch.get (js "type")) = some ad → (∃ f ∈ ad.fields, isMasked (configOf ch) f = true) →
    ∃ was, savedAs old c.id c.type = some was ∧
      ∀ f ∈ ad.fields, (f.url || f.dest) = true → (c.config.get? f.key).getD [] = (was.config.get? f.key).getD []

/-- The saved channel that a posted one changes. -/
def savedFor (old : SavedConfig) (ch : Json) : Option SavedChannel :=
  match ch.get (js "id") with
  | some (.str id) => savedAs old id ((ch.get (js "type")).getD .null)
  | _ => none

/-- The channel is a webhook whose signing secret comes back masked and whose URL is typed, another than the saved. -/
def retypedUrl (old : SavedConfig) (ch : Json) : Bool :=
  let savedUrl := ((savedFor old ch).bind fun was => was.config.get? (js "url")).getD []
  ((adapterOf (ch.get (js "type"))).any fun ad => ad.type == js "webhook") &&
    ((configOf ch).get (js "secret")).any (same · (.str SECRET)) &&
    ((configOf ch).get (js "url")).any fun v => !same v (.str SECRET) && !same v (.str savedUrl)

/-- The channels that are posted. -/
def posted (input : Json) : List Json :=
  match input.get (js "channels") with
  | some (.arr chs) => chs
  | _ => []

private theorem checkEach_ok {old : SavedConfig} {chs : List Json} {i : ℕ} {ids : List JsString}
    {cs : List SavedChannel}
    (h : checkEach httpUrl old chs i ids = .ok cs) :
    cs.length = chs.length ∧ ∀ e ∈ chs.zip cs, ∃ i ids, checkChannel httpUrl old e.1 i ids = .ok e.2 := by
  induction chs generalizing i ids cs with
  | nil =>
    cases h
    exact ⟨rfl, fun _ he => absurd he List.not_mem_nil⟩
  | cons ch chs ih =>
    rw [checkEach] at h
    cases hc : checkChannel httpUrl old ch i ids with
    | error e =>
      rw [hc] at h
      cases h
    | ok c =>
      rw [hc] at h
      cases hrest : checkEach httpUrl old chs (i + 1) (ids ++ [c.id]) with
      | error e =>
        dsimp only [bind, Except.bind] at h
        rw [hrest] at h
        cases h
      | ok cs' =>
        dsimp only [bind, Except.bind] at h
        rw [hrest] at h
        cases h
        obtain ⟨hlen, hall⟩ := ih hrest
        refine ⟨congrArg (· + 1) hlen, fun e he => ?_⟩
        rcases List.mem_cons.1 he with rfl | he
        · exact ⟨i, ids, hc⟩
        · exact hall e he

theorem checkChannels_ok {old result : SavedConfig} {input : Json} (h : checkChannels httpUrl input old = .ok result) :
    result.channels.length = (posted input).length ∧
      ∀ e ∈ (posted input).zip result.channels, ∃ i ids, checkChannel httpUrl old e.1 i ids = .ok e.2 := by
  unfold checkChannels at h
  split at h
  · rename_i chs hchs
    have hposted : posted input = chs := by
      unfold posted
      rw [hchs]
    rw [hposted]
    split at h
    · cases h
    · cases heach : checkEach httpUrl old chs 0 [] with
      | error e =>
        rw [heach] at h
        cases h
      | ok cs =>
        rw [heach] at h
        dsimp only [bind, Except.bind] at h
        split at h
        · cases h
        · split at h <;> cases h
          exact checkEach_ok heach
  · cases h

/-- A masked secret stays with its addresses unless the URL of its webhook is typed anew. -/
private theorem stays_iff_of_channel {old : SavedConfig} {ch : Json} {i : ℕ} {ids : List JsString} {c : SavedChannel}
    (h : checkChannel httpUrl old ch i ids = .ok c) : Stays old ch c ↔ retypedUrl old ch = false := by
  obtain ⟨ad, hid, htype, had, hfields⟩ := checkChannel_ok h
  have hmem := adapterOf_mem had
  have hsaved : savedFor old ch = savedAs old c.id c.type := by
    unfold savedFor
    rw [hid, htype]
    rfl
  constructor
  · intro hstays
    rw [← Bool.not_eq_true]
    intro hretyped
    unfold retypedUrl at hretyped
    rw [had, hsaved] at hretyped
    simp only [Option.any_some, Bool.and_eq_true, beq_iff_eq] at hretyped
    obtain ⟨⟨hwebhook, hsecret⟩, hurl⟩ := hretyped
    obtain ⟨⟨f, hf, hkey, hfsecret⟩, f', hf', hkey', haddress⟩ := webhook_fields hmem hwebhook
    have hmask : isMasked (configOf ch) f = true := by
      unfold isMasked
      rw [hkey, hfsecret, hsecret]
      rfl
    obtain ⟨was, hwas, hsame⟩ := hstays ad had ⟨f, hf, hmask⟩
    rw [Option.any_eq_true] at hurl
    obtain ⟨v, hv, hne⟩ := hurl
    rw [Bool.and_eq_true, Bool.not_eq_true', Bool.not_eq_true'] at hne
    have htyped : isMasked (configOf ch) f' = false := by
      unfold isMasked
      rw [hkey', hv, Option.any_some, hne.1, Bool.and_false]
    have hfield := hfields f' hf'
    rcases of_typed htyped hfield with ⟨hnone, -⟩ | hstr
    · rw [hkey', hv] at hnone
      cases hnone
    · rw [hsame f' hf' haddress, hkey', hv] at hstr
      have hequal := same_str.2 (Option.some.inj hstr)
      rw [hwas, Option.bind_some, hequal] at hne
      cases hne.2
  · rintro hno ad' had' ⟨f, hf, hmask⟩
    obtain rfl := Option.some.inj (had.symm.trans had')
    obtain ⟨was, hwas, hmoved, -⟩ := of_masked hmask (hfields f hf)
    refine ⟨was, hwas, fun f' hf' haddress => ?_⟩
    have hfield := hfields f' hf'
    by_cases hmask' : isMasked (configOf ch) f' = true
    · obtain ⟨was', hwas', -, hsame⟩ := of_masked hmask' hfield
      obtain rfl := Option.some.inj (hwas.symm.trans hwas')
      exact hsame
    · rw [Bool.not_eq_true] at hmask'
      by_cases hsecret' : f'.secret = true
      · have hsecret : f.secret = true := (Bool.and_eq_true_iff.1 hmask).1
        have hne : f.key ≠ f'.key := by
          intro he
          unfold isMasked at hmask hmask'
          rw [hsecret', ← he, ← hsecret, hmask] at hmask'
          cases hmask'
        obtain ⟨hwebhook, hkey, hkey', hneeded⟩ := secret_address hmem hf hf' hsecret hsecret' haddress hne
        rcases of_typed hmask' hfield with ⟨-, -, hoptional⟩ | hstr
        · rw [hneeded] at hoptional
          cases hoptional
        · unfold retypedUrl at hno
          unfold isMasked at hmask hmask'
          rw [hsecret, hkey, Bool.true_and] at hmask
          rw [hsecret', hstr, Option.any_some, Bool.true_and] at hmask'
          rw [hkey'] at hstr
          rw [hkey'] at hmask'
          rw [had, hsaved, hwas, Option.any_some, hwebhook, hmask, hstr] at hno
          have hequal : same (.str ((c.config.get? (js "url")).getD []))
              (.str ((was.config.get? (js "url")).getD [])) = true := by
            simpa [hmask'] using hno
          rw [hkey']
          exact Json.str.inj (same_str.1 hequal)
      · rw [Bool.not_eq_true] at hsecret'
        have hshown := of_not_moved hmoved hf' haddress hsecret'
        rw [orEmpty_of_typed hmask' hfield] at hshown
        exact Json.str.inj hshown

/-- **Where a saved secret may go.**  In every accepted post, the channels that keep a masked secret send to the
addresses they had, if and only if no webhook keeps its signing secret masked under a URL typed anew. -/
theorem stays_iff_not_retyped {old result : SavedConfig} {input : Json}
    (h : checkChannels httpUrl input old = .ok result) :
    (∀ e ∈ (posted input).zip result.channels, Stays old e.1 e.2) ↔ ∀ ch ∈ posted input, retypedUrl old ch = false := by
  obtain ⟨hlen, hall⟩ := checkChannels_ok h
  constructor
  · intro hstays ch hch
    obtain ⟨n, hn, rfl⟩ := List.mem_iff_getElem.1 hch
    have hn' : n < result.channels.length := hlen ▸ hn
    have hzip : ((posted input)[n], result.channels[n]) ∈ (posted input).zip result.channels := by
      have hlt : n < ((posted input).zip result.channels).length := by
        rw [List.length_zip]
        omega
      have hget : ((posted input).zip result.channels)[n] = ((posted input)[n], result.channels[n]) := List.getElem_zip
      rw [← hget]
      exact List.getElem_mem hlt
    obtain ⟨i, ids, hc⟩ := hall _ hzip
    exact (stays_iff_of_channel hc).1 (hstays _ hzip)
  · intro hno e he
    obtain ⟨i, ids, hc⟩ := hall e he
    exact (stays_iff_of_channel hc).2 (hno _ (List.of_mem_zip he).1)

/-! ### A webhook -/

/-- The URLs of the posts below: those that begin with https:. -/
private def webUrl (s : JsString) : Bool := (js "https://").isPrefixOf s

private def hook (name url secret : String) : Json := .obj [(js "channels", .arr [.obj [
  (js "id", .str (js "ch_w")), (js "type", .str (js "webhook")), (js "name", .str (js name)),
  (js "min", .str (js "warning")), (js "on", .bool true),
  (js "config", .obj [(js "url", .str (js url)), (js "secret", .str (js secret))])]])]

private def hookSaved (name url : String) : SavedConfig :=
  ⟨[⟨js "ch_w", .str (js "webhook"), js name, js "warning", true, true,
    (OMap.empty.set (js "url") (js url)).set (js "secret") (js "s3cret")⟩], none, .str (js "07:00")⟩

/-- A renamed webhook keeps its URL and its signing secret. -/
theorem renamed_stays :
    checkChannels webUrl (hook "renamed" "********" "********") (hookSaved "hook" "https://good.test/h") =
      .ok (hookSaved "renamed" "https://good.test/h") ∧
    ∀ e ∈ (posted (hook "renamed" "********" "********")).zip (hookSaved "renamed" "https://good.test/h").channels,
      Stays (hookSaved "hook" "https://good.test/h") e.1 e.2 := by
  have h : checkChannels webUrl (hook "renamed" "********" "********") (hookSaved "hook" "https://good.test/h") =
      .ok (hookSaved "renamed" "https://good.test/h") := by rfl
  refine ⟨h, (stays_iff_not_retyped h).2 fun ch hch => ?_⟩
  rw [List.mem_singleton.1 hch]
  rfl

/-- The URL of a webhook is typed anew while its signing secret comes back masked: the secret goes there. -/
theorem secret_moved :
    checkChannels webUrl (hook "hook" "https://good.test/h" "s3cret") ⟨[], none, .str (js "07:00")⟩ =
      .ok (hookSaved "hook" "https://good.test/h") ∧
    checkChannels webUrl (hook "hook" "https://evil.test/h" "********") (hookSaved "hook" "https://good.test/h") =
      .ok (hookSaved "hook" "https://evil.test/h") ∧
    ¬ ∀ e ∈ (posted (hook "hook" "https://evil.test/h" "********")).zip (hookSaved "hook" "https://evil.test/h").channels,
      Stays (hookSaved "hook" "https://good.test/h") e.1 e.2 := by
  have hresult : checkChannels webUrl (hook "hook" "https://evil.test/h" "********")
      (hookSaved "hook" "https://good.test/h") = .ok (hookSaved "hook" "https://evil.test/h") := by rfl
  refine ⟨by rfl, hresult, fun hstays => ?_⟩
  obtain ⟨i, ids, hc⟩ := (checkChannels_ok hresult).2 _ List.mem_cons_self
  have hno := (stays_iff_of_channel hc).1 (hstays _ List.mem_cons_self)
  cases hno

end Channels

end Servitals
