import Servitals.LinkSteps

/-!
# The tales of the link flow

The invariant of the link flow, in two parts: the log tells one of five tales of each request on the heap (`Tale`), and
the two maps hold the requests that are not decided or not expired (`Indexed`).
-/

namespace Servitals

namespace Links

variable {ρ : Type*}

/-! ### The tale of a request -/

/-- The request that an entry of the log is about. -/
def placeOf : LinkEvent ρ → Option ℕ
  | .started p _ _ _ _ _ | .decided p _ _ | .called p _ _ | .handed p _ _ => some p
  | .unknown _ _ => none

/-- What the log tells of a request. -/
def about (p : ℕ) (log : List (LinkEvent ρ)) : List (LinkEvent ρ) := log.filter fun e => placeOf e == some p

def Decided (log : List (LinkEvent ρ)) (p : ℕ) : Prop := ∃ a t, .decided p a t ∈ log

/-- The request was made with the two codes at the time. -/
structure Begun (hash : JsString → JsString) (r : LinkRequest ρ) (device : JsString) (code : UserCode) (t : ℤ) :
    Prop where
  device : r.deviceHash = hash device
  code : r.userHash = hash code.1
  expires : r.expires = t + TTL_MS

/-- What may be told of a request: it waits; it was denied; its approval failed; it was approved with its own details;
its result was handed out for its device code.  A decision is made before the request expires. -/
inductive Tale (hash : JsString → JsString) (p : ℕ) (r : LinkRequest ρ) : List (LinkEvent ρ) → Prop
  | waiting {device code d key t} (h : Begun hash r device code t) (hstatus : r.status = .pending)
      (hdetails : r.details = d) : Tale hash p r [.started p device code d key t]
  | denied {device code d key t t'} (h : Begun hash r device code t) (ht : t' ≤ t + TTL_MS)
      (hstatus : r.status = .denied) : Tale hash p r [.started p device code d key t, .decided p false t']
  | threw {device code d key t t'} (h : Begun hash r device code t) (ht : t' ≤ t + TTL_MS)
      (hstatus : r.status = .pending) :
      Tale hash p r [.started p device code d key t, .decided p true t', .called p d none]
  | approved {device code d key t t' res} (h : Begun hash r device code t) (ht : t' ≤ t + TTL_MS)
      (hstatus : r.status = .approved) (hres : r.result = some res) :
      Tale hash p r [.started p device code d key t, .decided p true t', .called p d (some res)]
  | spent {device code d key t t' res device'} (h : Begun hash r device code t) (ht : t' ≤ t + TTL_MS)
      (hstatus : r.status = .spent) (hdevice : hash device' = hash device) :
      Tale hash p r
        [.started p device code d key t, .decided p true t', .called p d (some res), .handed p device' res]

/-- The log tells a tale of each request, and nothing of others. -/
def Told (hash : JsString → JsString) (rs : List (LinkRequest ρ)) (log : List (LinkEvent ρ)) : Prop :=
  ∀ p, (rs[p]? = none ∧ about p log = []) ∨ ∃ r, rs[p]? = some r ∧ Tale hash p r (about p log)

variable {hash : JsString → JsString} {rs : List (LinkRequest ρ)} {log : List (LinkEvent ρ)} {p : ℕ}

private theorem about_append (p : ℕ) (l l' : List (LinkEvent ρ)) : about p (l ++ l') = about p l ++ about p l' :=
  List.filter_append ..

private theorem about_single_self {e : LinkEvent ρ} (he : placeOf e = some p) : about p [e] = [e] := by
  simp [about, he]

private theorem about_single_other {e : LinkEvent ρ} {q : ℕ} (he : placeOf e = some p) (hq : q ≠ p) :
    about q [e] = [] := by
  simp [about, he, Ne.symm hq]

theorem mem_about {e : LinkEvent ρ} (he : placeOf e = some p) : e ∈ about p log ↔ e ∈ log := by
  simp [about, he]

/-- A request that is not decided waits. -/
theorem Tale.waits {r : LinkRequest ρ} (h : Tale hash p r (about p log)) (hp : ¬ Decided log p) :
    ∃ device code d key t, about p log = [.started p device code d key t] ∧ Begun hash r device code t ∧
      r.status = .pending ∧ r.details = d := by
  have hno : ∀ a t, .decided p a t ∉ about p log := fun a t hm => hp ⟨a, t, (mem_about rfl).1 hm⟩
  generalize about p log = l at h hno
  cases h with
  | waiting h hstatus hdetails => exact ⟨_, _, _, _, _, rfl, h, hstatus, hdetails⟩
  | denied => exact absurd (List.mem_cons_of_mem _ List.mem_cons_self) (hno false _)
  | threw => exact absurd (List.mem_cons_of_mem _ List.mem_cons_self) (hno true _)
  | approved => exact absurd (List.mem_cons_of_mem _ List.mem_cons_self) (hno true _)
  | spent => exact absurd (List.mem_cons_of_mem _ List.mem_cons_self) (hno true _)

/-- An approved request has its result, which was not handed out. -/
theorem Tale.approval {r : LinkRequest ρ} {l : List (LinkEvent ρ)} (h : Tale hash p r l)
    (hstatus : r.status = .approved) :
    ∃ device code d key t t' res, l = [.started p device code d key t, .decided p true t', .called p d (some res)] ∧
      Begun hash r device code t ∧ t' ≤ t + TTL_MS ∧ r.result = some res := by
  cases h with
  | approved h ht _ hres => exact ⟨_, _, _, _, _, _, _, rfl, h, ht, hres⟩
  | waiting _ hs => rw [hs] at hstatus; cases hstatus
  | denied _ _ hs => rw [hs] at hstatus; cases hstatus
  | threw _ _ hs => rw [hs] at hstatus; cases hstatus
  | spent _ _ hs => rw [hs] at hstatus; cases hstatus

/-- A poll that only notes its time leaves the tale. -/
theorem Tale.polled {r : LinkRequest ρ} {l : List (LinkEvent ρ)} (h : Tale hash p r l) (t : ℤ) :
    Tale hash p { r with lastPoll := t } l := by
  cases h with
  | waiting h hs hd => exact .waiting ⟨h.device, h.code, h.expires⟩ hs hd
  | denied h ht hs => exact .denied ⟨h.device, h.code, h.expires⟩ ht hs
  | threw h ht hs => exact .threw ⟨h.device, h.code, h.expires⟩ ht hs
  | approved h ht hs hres => exact .approved ⟨h.device, h.code, h.expires⟩ ht hs hres
  | spent h ht hs hdevice => exact .spent ⟨h.device, h.code, h.expires⟩ ht hs hdevice

theorem told_nil (hash : JsString → JsString) : Told hash ([] : List (LinkRequest ρ)) [] := fun _ => Or.inl ⟨rfl, rfl⟩

theorem Told.tale {r : LinkRequest ρ} (h : Told hash rs log) (hr : rs[p]? = some r) : Tale hash p r (about p log) := by
  rcases h p with ⟨hnone, -⟩ | ⟨r', hr', ht⟩
  · rw [hnone] at hr
    cases hr
  · obtain rfl := Option.some.inj (hr'.symm.trans hr)
    exact ht

/-- Entries about one request change its tale only. -/
theorem Told.update {r r' : LinkRequest ρ} (h : Told hash rs log) (hr : rs[p]? = some r) {es : List (LinkEvent ρ)}
    (hes : ∀ e ∈ es, placeOf e = some p) (htale : Tale hash p r' (about p log ++ es)) :
    Told hash (rs.set p r') (log ++ es) := by
  intro q
  have hlt : p < rs.length := (List.getElem?_eq_some_iff.1 hr).1
  by_cases hq : q = p
  · subst hq
    refine Or.inr ⟨r', List.getElem?_set_self hlt, ?_⟩
    have he : about q es = es := List.filter_eq_self.2 fun e he => by simp [hes e he]
    rw [about_append, he]
    exact htale
  · have he : about q es = [] := List.filter_eq_nil_iff.2 fun e he => by simp [hes e he, Ne.symm hq]
    rw [List.getElem?_set_ne (Ne.symm hq), about_append, he, List.append_nil]
    exact h q

/-- Entries about no request leave the tales. -/
theorem Told.unknown (h : Told hash rs log) (keys : List JsString) (t : ℤ) :
    Told hash rs (log ++ [.unknown keys t]) := by
  intro q
  have he : about q ([.unknown keys t] : List (LinkEvent ρ)) = [] := rfl
  rw [about_append, he, List.append_nil]
  exact h q

/-- A new request begins its tale. -/
theorem Told.begin (h : Told hash rs log) (device : JsString) (code : UserCode) (d : Details) (t : ℤ) :
    Told hash (rs ++ [fresh hash device code d t])
      (log ++ [.started rs.length device code d (addressKey d.ip) t]) := by
  intro q
  rcases h q with ⟨hnone, habout⟩ | ⟨r, hr, ht⟩
  · by_cases hq : q = rs.length
    · subst hq
      refine Or.inr ⟨_, List.getElem?_concat_length, ?_⟩
      rw [about_append, habout, List.nil_append, about_single_self rfl]
      exact .waiting ⟨rfl, rfl, rfl⟩ rfl rfl
    · refine Or.inl ⟨?_, ?_⟩
      · rw [List.getElem?_eq_none_iff] at hnone ⊢
        rw [List.length_append, List.length_singleton]
        omega
      · rw [about_append, habout, List.nil_append]
        exact about_single_other rfl hq
  · have hlt : q < rs.length := (List.getElem?_eq_some_iff.1 hr).1
    refine Or.inr ⟨r, ?_, ?_⟩
    · rw [List.getElem?_append_left hlt]
      exact hr
    · rw [about_append, about_single_other rfl (by omega), List.append_nil]
      exact ht

private theorem decided_append {es : List (LinkEvent ρ)} (hes : ∀ e ∈ es, ∀ a t, e ≠ .decided p a t) :
    Decided (log ++ es) p ↔ Decided log p := by
  constructor
  · rintro ⟨a, t, h⟩
    rcases List.mem_append.1 h with h | h
    · exact ⟨a, t, h⟩
    · exact absurd rfl (hes _ h a t)
  · rintro ⟨a, t, h⟩
    exact ⟨a, t, List.mem_append_left _ h⟩

/-! ### What the maps hold -/

/-- The maps lead to their requests, and hold every request that has not expired: by its device code, and by its user
code while it is not decided. -/
structure Indexed (rs : List (LinkRequest ρ)) (log : List (LinkEvent ρ)) (byDevice byUser : OMap JsString ℕ)
    (now : ℤ) : Prop where
  device : ∀ h p, byDevice.get? h = some p → ∃ r, rs[p]? = some r ∧ r.deviceHash = h
  user : ∀ h p, byUser.get? h = some p → ¬ Decided log p ∧ ∃ r, rs[p]? = some r ∧ r.userHash = h
  apart : ∀ h h' p p' r r', byDevice.get? h = some p → byDevice.get? h' = some p' → rs[p]? = some r →
    rs[p']? = some r' → r.userHash = r'.userHash → p = p'
  live : ∀ p r, rs[p]? = some r → now ≤ r.expires →
    byDevice.get? r.deviceHash = some p ∧ (¬ Decided log p → byUser.get? r.userHash = some p)

theorem indexed_nil (now : ℤ) : Indexed ([] : List (LinkRequest ρ)) [] .empty .empty now where
  device _ _ h := by cases h
  user _ _ h := by cases h
  apart _ _ _ _ _ _ h := by cases h
  live _ _ h := by cases h

variable {byDevice byUser : OMap JsString ℕ} {now : ℤ}

theorem Indexed.later (h : Indexed rs log byDevice byUser now) {t : ℤ} (ht : now ≤ t) :
    Indexed rs log byDevice byUser t :=
  ⟨h.device, h.user, h.apart, fun p r hr hexp => h.live p r hr (ht.trans hexp)⟩

/-- A sweep leaves what can still be asked for. -/
theorem Indexed.swept {s s' : Links ρ} {t : ℤ} (h : Indexed s.requests s.log s.byDevice s.byUser now)
    (htold : Told hash s.requests s.log) (hswept : Swept t s s') (ht : now ≤ t) :
    Indexed s'.requests s'.log s'.byDevice s'.byUser t := by
  rw [hswept.requests, hswept.log]
  constructor
  · intro k p hp
    exact h.device k p (hswept.device k p hp)
  · intro k p hp
    exact h.user k p (hswept.user k p hp)
  · intro k k' p p' r r' hp hp'
    exact h.apart k k' p p' r r' (hswept.device k p hp) (hswept.device k' p' hp')
  · intro p r hr hexp
    obtain ⟨hdevice, huser⟩ := h.live p r hr (ht.trans hexp)
    constructor
    · apply hswept.deviceKept _ _ r hdevice hr
      have : 0 ≤ KEEP_MS := by decide
      omega
    · intro hp
      refine hswept.userKept _ _ (huser hp) fun k' p' r' hk' hr' he => ?_
      -- a remembered request with the same user code is this one, and it waits
      obtain rfl := h.apart _ _ _ _ _ _ hk' hdevice hr' hr he
      obtain rfl := Option.some.inj (hr'.symm.trans hr)
      obtain ⟨-, -, -, -, -, -, -, hstatus, -⟩ := (htold.tale hr).waits hp
      exact ⟨hexp, hstatus⟩

/-- A change that leaves the codes and the expiry of a request leaves the maps right. -/
theorem Indexed.update (h : Indexed rs log byDevice byUser now) {r r' : LinkRequest ρ} (hr : rs[p]? = some r)
    (hdevice : r'.deviceHash = r.deviceHash) (huser : r'.userHash = r.userHash) (hexp : r'.expires = r.expires) :
    Indexed (rs.set p r') log byDevice byUser now := by
  have hlt : p < rs.length := (List.getElem?_eq_some_iff.1 hr).1
  have hset : ∀ (q : ℕ) (r₁ : LinkRequest ρ), (rs.set p r')[q]? = some r₁ → ∃ r₂ : LinkRequest ρ,
      rs[q]? = some r₂ ∧ r₁.deviceHash = r₂.deviceHash ∧ r₁.userHash = r₂.userHash ∧ r₁.expires = r₂.expires := by
    intro q r₁ hq
    by_cases hqp : q = p
    · subst hqp
      rw [List.getElem?_set_self hlt] at hq
      obtain rfl := Option.some.inj hq
      exact ⟨r, hr, hdevice, huser, hexp⟩
    · rw [List.getElem?_set_ne (Ne.symm hqp)] at hq
      exact ⟨r₁, hq, rfl, rfl, rfl⟩
  have hget : ∀ (q : ℕ) (r₂ : LinkRequest ρ), rs[q]? = some r₂ → ∃ r₁ : LinkRequest ρ, (rs.set p r')[q]? = some r₁ ∧ r₁.deviceHash = r₂.deviceHash ∧
      r₁.userHash = r₂.userHash := by
    intro q r₂ hq
    by_cases hqp : q = p
    · subst hqp
      obtain rfl := Option.some.inj (hr.symm.trans hq)
      exact ⟨r', List.getElem?_set_self hlt, hdevice, huser⟩
    · exact ⟨r₂, by rw [List.getElem?_set_ne (Ne.symm hqp)]; exact hq, rfl, rfl⟩
  constructor
  · intro k q hq
    obtain ⟨r₂, hr₂, he⟩ := h.device k q hq
    obtain ⟨r₁, hr₁, hd, -⟩ := hget q r₂ hr₂
    exact ⟨r₁, hr₁, hd.trans he⟩
  · intro k q hq
    obtain ⟨hno, r₂, hr₂, he⟩ := h.user k q hq
    obtain ⟨r₁, hr₁, -, hu⟩ := hget q r₂ hr₂
    exact ⟨hno, r₁, hr₁, hu.trans he⟩
  · intro k k' q q' r₁ r₁' hq hq' hr₁ hr₁' he
    obtain ⟨r₂, hr₂, -, hu, -⟩ := hset q r₁ hr₁
    obtain ⟨r₂', hr₂', -, hu', -⟩ := hset q' r₁' hr₁'
    exact h.apart k k' q q' r₂ r₂' hq hq' hr₂ hr₂' (hu.symm.trans (he.trans hu'))
  · intro q r₁ hr₁ ht
    obtain ⟨r₂, hr₂, hd, hu, he⟩ := hset q r₁ hr₁
    rw [hd, hu]
    exact h.live q r₂ hr₂ (he ▸ ht)

/-- Entries that decide nothing leave the maps right. -/
theorem Indexed.append (h : Indexed rs log byDevice byUser now) {es : List (LinkEvent ρ)}
    (hes : ∀ e ∈ es, ∀ p a t, e ≠ .decided p a t) : Indexed rs (log ++ es) byDevice byUser now := by
  have hsame : ∀ p, Decided (log ++ es) p ↔ Decided log p := fun p =>
    decided_append fun e he a t => hes e he p a t
  refine ⟨h.device, fun k p hp => ?_, h.apart, fun p r hr ht => ?_⟩
  · rw [hsame]
    exact h.user k p hp
  · rw [hsame]
    exact h.live p r hr ht

/-- A request that is decided leaves the map of user codes. -/
theorem Indexed.decide (h : Indexed rs log byDevice byUser now) {r : LinkRequest ρ} (hr : rs[p]? = some r)
    (hp : byUser.get? r.userHash = some p) (a : Bool) (t : ℤ) : Indexed rs (log ++ [.decided p a t]) byDevice (byUser.erase r.userHash) now := by
  have hdecided : ∀ q, Decided (log ++ [.decided p a t]) q ↔ Decided log q ∨ q = p := by
    intro q
    simp only [Decided, List.mem_append, List.mem_singleton, LinkEvent.decided.injEq]
    constructor
    · rintro ⟨a', t', hm | ⟨rfl, -, -⟩⟩
      · exact Or.inl ⟨a', t', hm⟩
      · exact Or.inr rfl
    · rintro (⟨a', t', hm⟩ | rfl)
      · exact ⟨a', t', Or.inl hm⟩
      · exact ⟨a, t, Or.inr ⟨rfl, rfl, rfl⟩⟩
  refine ⟨h.device, fun k q hq => ?_, h.apart, fun q r' hr' ht => ?_⟩
  · rw [OMap.get?_erase] at hq
    split at hq
    · cases hq
    · rename_i hk
      obtain ⟨hno, r', hr', he⟩ := h.user k q hq
      refine ⟨?_, r', hr', he⟩
      rw [hdecided, not_or]
      refine ⟨hno, ?_⟩
      rintro rfl
      obtain rfl := Option.some.inj (hr.symm.trans hr')
      exact hk he.symm
  · obtain ⟨hdevice, huser⟩ := h.live q r' hr' ht
    refine ⟨hdevice, fun hno => ?_⟩
    rw [hdecided, not_or] at hno
    have hq := huser hno.1
    rw [OMap.get?_erase_of_ne]
    · exact hq
    · intro he
      rw [he] at hq
      exact hno.2 (Option.some.inj (hq.symm.trans hp))

/-- A new request, with codes that no remembered one has. -/
theorem Indexed.begin (h : Indexed rs log byDevice byUser now) (htold : Told hash rs log) {device : JsString}
    {code : UserCode} (d : Details) (t : ℤ)
    (hnew : ∀ k p r, byDevice.get? k = some p → rs[p]? = some r → r.deviceHash ≠ hash device ∧ r.userHash ≠ hash code.1)
    (hfree : byUser.get? (hash code.1) = none) :
    Indexed (rs ++ [fresh hash device code d t])
      (log ++ [.started rs.length device code d (addressKey d.ip) t]) (byDevice.set (hash device) rs.length)
      (byUser.set (hash code.1) rs.length) now := by
  have hgrown : ∀ (q : ℕ) (r : LinkRequest ρ), (rs ++ [fresh hash device code d t])[q]? = some r →
      rs[q]? = some r ∨ (q = rs.length ∧ r = fresh hash device code d t) := by
    intro q r hq
    rcases Nat.lt_or_ge q rs.length with hlt | hge
    · rw [List.getElem?_append_left hlt] at hq
      exact Or.inl hq
    · rw [List.getElem?_append_right hge, List.getElem?_singleton] at hq
      split at hq
      · exact Or.inr ⟨by omega, (Option.some.inj hq).symm⟩
      · cases hq
  have hleft : ∀ (q : ℕ) (r : LinkRequest ρ), rs[q]? = some r → (rs ++ [fresh hash device code d t])[q]? = some r := by
    intro q r hq
    rw [List.getElem?_append_left (List.getElem?_eq_some_iff.1 hq).1]
    exact hq
  have hlast : (rs ++ [fresh hash device code d t])[rs.length]? = some (fresh hash device code d t) :=
    List.getElem?_concat_length
  have hsame : ∀ q, Decided (log ++ [.started rs.length device code d (addressKey d.ip) t]) q ↔ Decided log q :=
    fun q => decided_append fun e he a t' => by
      rw [List.mem_singleton.1 he]
      intro hd
      cases hd
  have hundecided : ¬ Decided log rs.length := by
    rintro ⟨a, t', hm⟩
    rcases htold rs.length with ⟨-, habout⟩ | ⟨r, hr, -⟩
    · have hmem := (mem_about rfl).2 hm
      rw [habout] at hmem
      exact absurd hmem List.not_mem_nil
    · rw [List.getElem?_eq_none le_rfl] at hr
      cases hr
  constructor
  · intro k q hq
    rw [OMap.get?_set] at hq
    split at hq
    · rename_i hk
      obtain rfl := Option.some.inj hq
      exact ⟨_, hlast, hk.symm⟩
    · obtain ⟨r, hr, he⟩ := h.device k q hq
      exact ⟨r, hleft q r hr, he⟩
  · intro k q hq
    rw [hsame]
    rw [OMap.get?_set] at hq
    split at hq
    · rename_i hk
      obtain rfl := Option.some.inj hq
      exact ⟨hundecided, _, hlast, hk.symm⟩
    · obtain ⟨hno, r, hr, he⟩ := h.user k q hq
      exact ⟨hno, r, hleft q r hr, he⟩
  · intro k k' q q' r r' hq hq' hr hr' he
    rw [OMap.get?_set] at hq hq'
    split at hq <;> split at hq'
    · exact (Option.some.inj hq).symm.trans (Option.some.inj hq')
    · obtain rfl := Option.some.inj hq
      obtain rfl := Option.some.inj (hlast.symm.trans hr)
      obtain ⟨r₂, hr₂, -⟩ := h.device k' q' hq'
      obtain rfl := Option.some.inj ((hleft q' r₂ hr₂).symm.trans hr')
      exact absurd he.symm (hnew k' q' r₂ hq' hr₂).2
    · obtain rfl := Option.some.inj hq'
      obtain rfl := Option.some.inj (hlast.symm.trans hr')
      obtain ⟨r₂, hr₂, -⟩ := h.device k q hq
      obtain rfl := Option.some.inj ((hleft q r₂ hr₂).symm.trans hr)
      exact absurd he (hnew k q r₂ hq hr₂).2
    · obtain ⟨r₂, hr₂, -⟩ := h.device k q hq
      obtain ⟨r₂', hr₂', -⟩ := h.device k' q' hq'
      obtain rfl := Option.some.inj ((hleft q r₂ hr₂).symm.trans hr)
      obtain rfl := Option.some.inj ((hleft q' r₂' hr₂').symm.trans hr')
      exact h.apart k k' q q' r₂ r₂' hq hq' hr₂ hr₂' he
  · intro q r hr ht
    rw [hsame]
    rcases hgrown q r hr with hr | ⟨rfl, rfl⟩
    · obtain ⟨hdevice, huser⟩ := h.live q r hr ht
      constructor
      · rw [OMap.get?_set_of_ne _ (hnew _ q r hdevice hr).1]
        exact hdevice
      · intro hno
        rw [OMap.get?_set_of_ne]
        · exact huser hno
        · intro he
          rw [← he, huser hno] at hfree
          cases hfree
    · exact ⟨OMap.get?_set_self _ _ _, fun _ => OMap.get?_set_self _ _ _⟩

/-! ### Runs -/

/-- The codes drawn for a start differ, by their hashes, from those of the requests the hub remembers. -/
def drawn (hash : JsString → JsString) (s : Links ρ) (c : LinkStep ρ) : Bool :=
  match c.op with
  | .start _ device codes => s.byDevice.values.all fun p => (s.requests[p]?).all fun r =>
      r.deviceHash != hash device && codes.all fun code => r.userHash != hash code.1
  | _ => true

/-- The invariant of the flow. -/
structure Kept (hash : JsString → JsString) (now : ℤ) (s : Links ρ) : Prop where
  told : Told hash s.requests s.log
  indexed : Indexed s.requests s.log s.byDevice s.byUser now

variable {s : Links ρ}

theorem Kept.sweep (h : Kept hash now s) {t : ℤ} (ht : now ≤ t) : Kept hash t (s.sweep t) := by
  have hswept := sweep_swept s t
  refine ⟨?_, h.indexed.swept h.told hswept ht⟩
  rw [hswept.requests, hswept.log]
  exact h.told

private theorem of_drawn {ask : Ask} {device : JsString} {codes : List UserCode} {t : ℤ}
    (h : drawn hash s ⟨t, .start ask device codes⟩ = true) {code : UserCode} (hcode : code ∈ codes) {k : JsString}
    {p : ℕ} {r : LinkRequest ρ} (hp : s.byDevice.get? k = some p) (hr : s.requests[p]? = some r) :
    r.deviceHash ≠ hash device ∧ r.userHash ≠ hash code.1 := by
  have h1 := List.all_eq_true.1 h p (OMap.mem_values_iff.2 ⟨k, hp⟩)
  rw [hr] at h1
  simp only [Option.all_some, Bool.and_eq_true, bne_iff_ne, List.all_eq_true] at h1
  exact ⟨h1.1, h1.2 code hcode⟩

/-- What is open can be decided: it is in the map, waits and has not expired. -/
theorem of_open {code : JsString} {t : ℤ} {p : ℕ} (h : s.open? hash code t = some p) :
    s.byUser.get? (hash (normalizeCode code)) = some p ∧
      ∃ r, s.requests[p]? = some r ∧ r.status = .pending ∧ t ≤ r.expires := by
  unfold open? at h
  dsimp only at h
  split at h
  · obtain ⟨hget, hany⟩ := Option.filter_eq_some_iff.1 h
    refine ⟨hget, ?_⟩
    rw [Option.any_eq_true] at hany
    obtain ⟨r, hr, hc⟩ := hany
    rw [Bool.and_eq_true, decide_eq_true_eq, decide_eq_true_eq] at hc
    exact ⟨r, hr, hc⟩
  · cases h

/-- A request that is open waits, and its decision takes it out of the map. -/
theorem Kept.opened (h : Kept hash now s) {code : JsString} {t : ℤ} {p : ℕ} {r : LinkRequest ρ}
    (hopen : s.open? hash code t = some p) (hr : s.requests[p]? = some r) :
    s.byUser.get? r.userHash = some p ∧ ∃ device c key t₀, about p s.log = [.started p device c r.details key t₀] ∧
      Begun hash r device c t₀ ∧ t ≤ t₀ + TTL_MS := by
  obtain ⟨huser, r', hr', -, hexp⟩ := of_open hopen
  obtain rfl := Option.some.inj (hr.symm.trans hr')
  obtain ⟨hno, r', hr', he⟩ := h.indexed.user _ _ huser
  obtain rfl := Option.some.inj (hr.symm.trans hr')
  obtain ⟨device, c, d, key, t₀, habout, hbegun, -, hdetails⟩ := (h.told.tale hr).waits hno
  subst hdetails
  refine ⟨by rw [he]; exact huser, device, c, key, t₀, habout, hbegun, ?_⟩
  rw [← hbegun.expires]
  exact hexp

theorem Kept.step (h : Kept hash now s) {c : LinkStep ρ} (hc : now ≤ c.time) (hdrawn : drawn hash s c = true) :
    Kept hash c.time (s.step hash c) := by
  have hk := h.sweep hc
  have heffect := step_effect hash s c
  generalize s.step hash c = s' at heffect
  cases heffect with
  | same => exact ⟨h.told, h.indexed.later hc⟩
  | swept => exact hk
  | begun ask device codes code details hop hcode hfree =>
    refine ⟨hk.told.begin device code details c.time, hk.indexed.begin hk.told details c.time ?_ hfree⟩
    intro k p r hp hr
    have hswept := sweep_swept s c.time
    obtain ⟨t, op⟩ := c
    cases hop
    rw [hswept.requests] at hr
    exact of_drawn hdrawn hcode (hswept.device k p hp) hr
  | counted w =>
    refine ⟨hk.told.unknown _ _, hk.indexed.append fun e he p a t hd => ?_⟩
    rw [List.mem_singleton.1 he] at hd
    cases hd
  | polled p r hr =>
    refine ⟨?_, hk.indexed.update hr rfl rfl rfl⟩
    have htale : Tale hash p { r with lastPoll := c.time } (about p (s.sweep c.time).log ++ []) := by
      rw [List.append_nil]
      exact (hk.told.tale hr).polled c.time
    have htold := hk.told.update hr (fun _ he => absurd he List.not_mem_nil) htale
    rwa [List.append_nil] at htold
  | handed device p r res hop hlen hheld hstatus hres =>
    obtain ⟨hq, hr⟩ := of_held hheld
    obtain ⟨r', hr', hdevice⟩ := hk.indexed.device _ _ hq
    obtain rfl := Option.some.inj (hr.symm.trans hr')
    obtain ⟨device', code, d, key, t, t', res', habout, hbegun, ht, hres'⟩ := (hk.told.tale hr).approval hstatus
    obtain rfl := Option.some.inj (hres'.symm.trans hres)
    constructor
    · refine hk.told.update hr (fun e he => ?_) ?_
      · rw [List.mem_singleton.1 he]
        rfl
      · rw [habout]
        exact .spent ⟨hbegun.device, hbegun.code, hbegun.expires⟩ ht rfl (hdevice.symm.trans hbegun.device)
    · refine Indexed.append ?_ fun e he p a t hd => ?_
      · exact hk.indexed.update hr rfl rfl rfl
      · rw [List.mem_singleton.1 he] at hd
        cases hd
  | denied code p r hopen hr =>
    obtain ⟨huser, device, c', key, t₀, habout, hbegun, ht⟩ := hk.opened hopen hr
    constructor
    · refine hk.told.update hr (fun e he => ?_) ?_
      · rw [List.mem_singleton.1 he]
        rfl
      · rw [habout]
        exact .denied ⟨hbegun.device, hbegun.code, hbegun.expires⟩ ht rfl
    · exact (hk.indexed.decide hr huser false c.time).update hr rfl rfl rfl
  | approved code p r res hopen hr =>
    obtain ⟨huser, device, c', key, t₀, habout, hbegun, ht⟩ := hk.opened hopen hr
    constructor
    · have htale : Tale hash p { r with result := some res, status := .approved }
          (about p (s.sweep c.time).log ++ [.decided p true c.time, .called p r.details (some res)]) := by
        rw [habout]
        exact .approved ⟨hbegun.device, hbegun.code, hbegun.expires⟩ ht rfl rfl
      have htold := hk.told.update hr (fun e he => ?_) htale
      · rw [show [LinkEvent.decided p true c.time, .called p r.details (some res)] =
          [.decided p true c.time] ++ [.called p r.details (some res)] from rfl, ← List.append_assoc] at htold
        exact htold
      · simp only [List.mem_cons, List.not_mem_nil, or_false] at he
        rcases he with rfl | rfl <;> rfl
    · refine Indexed.update (Indexed.append (hk.indexed.decide hr huser true c.time) fun e he q a t hd => ?_) hr rfl rfl
        rfl
      rw [List.mem_singleton.1 he] at hd
      cases hd
  | threw code p r hopen hr =>
    obtain ⟨huser, device, c', key, t₀, habout, hbegun, ht⟩ := hk.opened hopen hr
    obtain ⟨-, r', hr', hstatus, -⟩ := of_open hopen
    obtain rfl := Option.some.inj (hr.symm.trans hr')
    constructor
    · have htale : Tale hash p r (about p (s.sweep c.time).log ++ [.decided p true c.time, .called p r.details none]) := by
        rw [habout]
        exact .threw hbegun ht hstatus
      have htold := hk.told.update hr (fun e he => ?_) htale
      · rw [show [LinkEvent.decided p true c.time, .called p r.details none] =
          [.decided p true c.time] ++ [.called p r.details none] from rfl, ← List.append_assoc] at htold
        have hsame : (s.sweep c.time).requests.set p r = (s.sweep c.time).requests := by
          obtain ⟨hlt, he⟩ := List.getElem?_eq_some_iff.1 hr
          rw [← he]
          exact List.set_getElem_self hlt
        rw [hsame] at htold
        exact htold
      · simp only [List.mem_cons, List.not_mem_nil, or_false] at he
        rcases he with rfl | rfl <;> rfl
    · refine Indexed.append (hk.indexed.decide hr huser true c.time) fun e he q a t hd => ?_
      rw [List.mem_singleton.1 he] at hd
      cases hd

end Links

end Servitals
