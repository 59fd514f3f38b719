import Servitals.LinkTales
import Servitals.LinkAnswers
import Servitals.Lib.Runs

/-!
# The device flow

Every request of the link flow is decided at most once, approved with its own secret and details, and its result is
handed out once, to the holder of its device code; a user code finds its request from its start until its decision or
its expiry.  The log is what the callers were answered (`Tells`), so this is about the answers.
-/

namespace Servitals

namespace Links

variable {ρ : Type*} {hash : JsString → JsString} {log : List (LinkEvent ρ)} {s : Links ρ} {now : ℤ}

/-! ### Runs -/

/-- The invariant holds after every run of a clock that never goes back. -/
theorem kept_run {steps : List (LinkStep ρ)} (h : Kept hash now s) (hnow : ∀ c ∈ steps, now ≤ c.time)
    (hclock : (steps.map LinkStep.time).Pairwise (· ≤ ·))
    (hdrawn : Runs.Meets (step hash) (fun s c => drawn hash s c = true) s steps) {t : ℤ} (ht : now ≤ t)
    (hlast : ∀ c ∈ steps, c.time ≤ t) : Kept hash t (Runs.run (step hash) s steps) := by
  induction steps generalizing s now with
  | nil => exact ⟨h.told, h.indexed.later ht⟩
  | cons c steps ih =>
    rw [List.map_cons, List.pairwise_cons] at hclock
    have hstep := h.step (hnow c List.mem_cons_self) hdrawn.1
    refine ih hstep (fun c' hc' => ?_) hclock.2 hdrawn.2 (hlast c List.mem_cons_self)
      fun c' hc' => hlast c' (List.mem_cons_of_mem _ hc')
    exact hclock.1 c'.time (List.mem_map_of_mem hc')

theorem exists_bounds (steps : List (LinkStep ρ)) : ∃ a b, ∀ c ∈ steps, a ≤ c.time ∧ c.time ≤ b := by
  induction steps with
  | nil => exact ⟨0, 0, fun _ h => absurd h List.not_mem_nil⟩
  | cons c steps ih =>
    obtain ⟨a, b, h⟩ := ih
    refine ⟨min c.time a, max c.time b, fun c' hc' => ?_⟩
    rcases List.mem_cons.1 hc' with rfl | hc'
    · omega
    · have := h c' hc'
      omega

theorem kept_of_init {steps : List (LinkStep ρ)} (hclock : (steps.map LinkStep.time).Pairwise (· ≤ ·))
    (hdrawn : Runs.Meets (step hash) (fun s c => drawn hash s c = true) init steps) {t : ℤ}
    (hlast : ∀ c ∈ steps, c.time ≤ t) : Kept hash t (Runs.run (step hash) init steps) := by
  obtain ⟨a, b, hbounds⟩ := exists_bounds steps
  refine kept_run ⟨told_nil hash, indexed_nil (min a t)⟩ (fun c hc => ?_) hclock hdrawn (min_le_right a t) hlast
  exact (min_le_left a t).trans (hbounds c hc).1

/-- The device codes drawn in a run. -/
def drawnCodes (steps : List (LinkStep ρ)) : List JsString :=
  steps.filterMap fun c => match c.op with
    | .start _ device _ => some device
    | _ => none

/-- The device codes presented in a run. -/
def polledCodes (steps : List (LinkStep ρ)) : List JsString :=
  steps.filterMap fun c => match c.op with
    | .poll device => device
    | _ => none

/-- What the log tells of codes comes from the calls. -/
structure FromCalls (steps : List (LinkStep ρ)) (log : List (LinkEvent ρ)) : Prop where
  started : ∀ p device code d key t, .started p device code d key t ∈ log → device ∈ drawnCodes steps
  handed : ∀ p device res, .handed p device res ∈ log → device ∈ polledCodes steps ∧ device.length ≤ 64

private theorem FromCalls.mono {steps : List (LinkStep ρ)} (h : FromCalls steps log) (c : LinkStep ρ) :
    FromCalls (steps ++ [c]) log := by
  constructor
  · intro p device code d key t hm
    rw [drawnCodes, List.filterMap_append]
    exact List.mem_append_left _ (h.started p device code d key t hm)
  · intro p device res hm
    rw [polledCodes, List.filterMap_append]
    exact ⟨List.mem_append_left _ (h.handed p device res hm).1, (h.handed p device res hm).2⟩

private theorem FromCalls.push {steps : List (LinkStep ρ)} (h : FromCalls steps log) {es : List (LinkEvent ρ)}
    (hs : ∀ p device code d key t, .started p device code d key t ∈ es → device ∈ drawnCodes steps)
    (hh : ∀ p device res, .handed p device res ∈ es → device ∈ polledCodes steps ∧ device.length ≤ 64) :
    FromCalls steps (log ++ es) := by
  constructor
  · intro p device code d key t hm
    rcases List.mem_append.1 hm with hm | hm
    · exact h.started p device code d key t hm
    · exact hs p device code d key t hm
  · intro p device res hm
    rcases List.mem_append.1 hm with hm | hm
    · exact h.handed p device res hm
    · exact hh p device res hm

private theorem FromCalls.step {steps : List (LinkStep ρ)} (h : FromCalls steps s.log) (c : LinkStep ρ) :
    FromCalls (steps ++ [c]) (s.step hash c).log := by
  have hlog : (s.sweep c.time).log = s.log := (sweep_swept s c.time).log
  have hk := h.mono c
  have heffect := step_effect hash s c
  generalize s.step hash c = s' at heffect
  have hnone : ∀ e : LinkEvent ρ, (∀ p device code d key t, e ≠ .started p device code d key t) →
      (∀ p device res, e ≠ .handed p device res) → ∀ l, FromCalls (steps ++ [c]) l → FromCalls (steps ++ [c]) (l ++ [e]) := by
    intro e hs hh l hl
    refine hl.push (fun p device code d key t hm => ?_) fun p device res hm => ?_
    · exact absurd (List.mem_singleton.1 hm).symm (hs p device code d key t)
    · exact absurd (List.mem_singleton.1 hm).symm (hh p device res)
  cases heffect with
  | same => exact hk
  | swept => rwa [hlog]
  | begun ask device codes code details hop =>
    show FromCalls _ ((s.sweep c.time).log ++ _)
    rw [hlog]
    refine hk.push (fun p device' code' d key t hm => ?_) fun p device' res hm => ?_
    · cases List.mem_singleton.1 hm
      rw [drawnCodes, List.filterMap_append]
      exact List.mem_append_right _ (by simp [hop])
    · cases List.mem_singleton.1 hm
  | counted w =>
    show FromCalls _ ((s.sweep c.time).log ++ _)
    rw [hlog]
    exact hnone _ (fun _ _ _ _ _ _ he => by cases he) (fun _ _ _ he => by cases he) _ hk
  | polled p r hr =>
    show FromCalls _ (s.sweep c.time).log
    rwa [hlog]
  | handed device p r res hop hlen hheld hstatus hres =>
    show FromCalls _ ((s.sweep c.time).log ++ _)
    rw [hlog]
    refine hk.push (fun p device' code' d key t hm => ?_) fun p device' res hm => ?_
    · cases List.mem_singleton.1 hm
    · cases List.mem_singleton.1 hm
      refine ⟨?_, hlen⟩
      rw [polledCodes, List.filterMap_append]
      exact List.mem_append_right _ (by simp [hop])
  | denied code p r hopen hr =>
    show FromCalls _ ((s.sweep c.time).log ++ _)
    rw [hlog]
    exact hnone _ (fun _ _ _ _ _ _ he => by cases he) (fun _ _ _ he => by cases he) _ hk
  | approved code p r res hopen hr =>
    show FromCalls _ (((s.sweep c.time).log ++ _) ++ _)
    rw [hlog]
    apply hnone _ (fun _ _ _ _ _ _ he => by cases he) (fun _ _ _ he => by cases he)
    exact hnone _ (fun _ _ _ _ _ _ he => by cases he) (fun _ _ _ he => by cases he) _ hk
  | threw code p r hopen hr =>
    show FromCalls _ (((s.sweep c.time).log ++ _) ++ _)
    rw [hlog]
    apply hnone _ (fun _ _ _ _ _ _ he => by cases he) (fun _ _ _ he => by cases he)
    exact hnone _ (fun _ _ _ _ _ _ he => by cases he) (fun _ _ _ he => by cases he) _ hk

private theorem fromCalls_run (hash : JsString → JsString) (steps : List (LinkStep ρ)) :
    FromCalls steps (Runs.run (step hash) init steps).log := by
  induction steps using List.reverseRecOn with
  | nil => exact ⟨fun _ _ _ _ _ _ h => absurd h List.not_mem_nil, fun _ _ _ h => absurd h List.not_mem_nil⟩
  | append_singleton steps c ih =>
    rw [Runs.run_snoc]
    exact ih.step c

/-! ### What a request comes to -/

def isDecision : LinkEvent ρ → Bool
  | .decided _ _ _ => true
  | _ => false

def isCall : LinkEvent ρ → Bool
  | .called _ _ _ => true
  | _ => false

def isHanding : LinkEvent ρ → Bool
  | .handed _ _ _ => true
  | _ => false

/-- What the log may tell of a request: one decision, before it expires; one call of `onApprove`, with what the request
was started with; its result handed out once, for its device code, after `onApprove` returned it, and never after it was
denied. -/
structure Proper (p : ℕ) (l : List (LinkEvent ρ)) : Prop where
  decidedOnce : l.countP isDecision ≤ 1
  calledOnce : l.countP isCall ≤ 1
  ownDetails : ∀ d o, .called p d o ∈ l → ∃ device code key t, .started p device code d key t ∈ l
  handedOnce : l.countP isHanding ≤ 1
  holder : ∀ device res, .handed p device res ∈ l → ∃ code d key t t', .started p device code d key t ∈ l ∧
    .decided p true t' ∈ l ∧ t' ≤ t + TTL_MS ∧ .called p d (some res) ∈ l
  denied : ∀ t, .decided p false t ∈ l → ∀ device res, .handed p device res ∉ l

/-- A tale is proper when a device code is known by its hash. -/
theorem Tale.proper {p : ℕ} {r : LinkRequest ρ} {l : List (LinkEvent ρ)} (h : Tale hash p r l)
    (hcodes : ∀ device code d key t device' res, .started p device code d key t ∈ l →
      .handed p device' res ∈ l → hash device' = hash device → device' = device) : Proper p l := by
  cases h with
  | waiting => exact ⟨Nat.zero_le 1, Nat.zero_le 1, by simp, Nat.zero_le 1, by simp, by simp⟩
  | denied => exact ⟨le_refl 1, Nat.zero_le 1, by simp, Nat.zero_le 1, by simp, by simp⟩
  | threw =>
    refine ⟨le_refl 1, le_refl 1, ?_, Nat.zero_le 1, by simp, by simp⟩
    intro d o hm
    simp only [List.mem_cons, LinkEvent.called.injEq, List.not_mem_nil, or_false, false_or, reduceCtorEq] at hm
    rw [hm.2.1]
    exact ⟨_, _, _, _, List.mem_cons_self⟩
  | approved =>
    refine ⟨le_refl 1, le_refl 1, ?_, Nat.zero_le 1, by simp, by simp⟩
    intro d o hm
    simp only [List.mem_cons, LinkEvent.called.injEq, List.not_mem_nil, or_false, false_or, reduceCtorEq] at hm
    rw [hm.2.1]
    exact ⟨_, _, _, _, List.mem_cons_self⟩
  | @spent device code d key t t' res device' hbegun ht hstatus hdevice =>
    obtain rfl : device' = device :=
      hcodes device code d key t device' res (by simp) (by simp) hdevice
    refine ⟨le_refl 1, le_refl 1, ?_, le_refl 1, ?_, by simp⟩
    · intro d o hm
      simp only [List.mem_cons, LinkEvent.called.injEq, List.not_mem_nil, or_false, false_or, reduceCtorEq] at hm
      rw [hm.2.1]
      exact ⟨_, _, _, _, List.mem_cons_self⟩
    · intro device res hm
      simp only [List.mem_cons, LinkEvent.handed.injEq, List.not_mem_nil, or_false, false_or, reduceCtorEq] at hm
      obtain ⟨-, rfl, rfl⟩ := hm
      exact ⟨code, d, key, t, t', by simp, by simp, ht, by simp⟩

/-! ### What a poll is answered -/

/-- All that the log tells of a request whose result may be handed out: it was started with the device code, approved
before it expired, and `onApprove` returned the result for its own details. -/
def OwnResult (log : List (LinkEvent ρ)) (device : JsString) (res : ρ) (p : ℕ) : Prop :=
  ∃ code d key t t', t' ≤ t + TTL_MS ∧
    about p log = [.started p device code d key t, .decided p true t', .called p d (some res)]

/-- What is handed out is the result of a request with the device code. -/
theorem Kept.own (h : Kept hash now s) {c : LinkStep ρ} (hc : now ≤ c.time) {es : List (LinkEvent ρ)}
    (hes : (s.step hash c).log = s.log ++ es) {p : ℕ} {device : JsString} {res : ρ} (hm : .handed p device res ∈ es)
    (hknown : c.op = .poll (some device) → ∀ device' code d key t, .started p device' code d key t ∈ s.log →
      hash device = hash device' → device = device') : OwnResult s.log device res p := by
  have hk := h.sweep hc
  have hlog := (sweep_swept s c.time).log
  have heffect := step_effect hash s c
  generalize s.step hash c = s' at heffect hes
  have hadded : ∀ es', s'.log = (s.sweep c.time).log ++ es' → .handed p device res ∈ es' := by
    intro es' he
    rw [he, hlog] at hes
    rwa [List.append_cancel_left hes]
  -- all effects but one tell of no result
  cases heffect with
  | same => exact absurd (hadded [] (by rw [hlog, List.append_nil])) List.not_mem_nil
  | swept => exact absurd (hadded [] (List.append_nil _).symm) List.not_mem_nil
  | begun ask device codes code details hop => exact absurd (hadded _ rfl) (by simp)
  | counted w => exact absurd (hadded _ rfl) (by simp)
  | polled q r hr => exact absurd (hadded [] (List.append_nil _).symm) List.not_mem_nil
  | denied code q r hopen hr => exact absurd (hadded [.decided q false c.time] rfl) (by simp)
  | approved code q r res' hopen hr =>
    exact absurd (hadded [.decided q true c.time, .called q r.details (some res')] (List.append_assoc ..)) (by simp)
  | threw code q r hopen hr =>
    exact absurd (hadded [.decided q true c.time, .called q r.details none] (List.append_assoc ..)) (by simp)
  | handed device' q r res' hop hlen hheld hstatus hres =>
    have heq := hadded _ rfl
    rw [List.mem_singleton, LinkEvent.handed.injEq] at heq
    obtain ⟨rfl, rfl, rfl⟩ := heq
    obtain ⟨hq, hr⟩ := of_held hheld
    obtain ⟨r', hr', hdevice⟩ := hk.indexed.device _ _ hq
    obtain rfl := Option.some.inj (hr.symm.trans hr')
    obtain ⟨device', code, d, key, t, t', res', habout, hbegun, ht, hres'⟩ := (hk.told.tale hr).approval hstatus
    obtain rfl := Option.some.inj (hres'.symm.trans hres)
    rw [hlog] at habout
    have hstarted : .started p device' code d key t ∈ s.log := by
      apply (mem_about (p := p) rfl).1
      rw [habout]
      exact List.mem_cons_self
    obtain rfl := hknown hop _ _ _ _ _ hstarted (hdevice.symm.trans hbegun.device)
    exact ⟨code, d, key, t, t', ht, habout⟩

/-! ### The flow -/

private theorem upperUnit_of_mem {u : UInt16} (h : u ∈ ALPHABET) : upperUnit u = [u] := by
  have hall : (ALPHABET.all fun u => upperUnit u == [u]) = true := by decide +kernel
  exact beq_iff_eq.1 (List.all_eq_true.1 hall u h)

/-- A user code is typed as it is shown, or without its dash. -/
private theorem normalizeCode_showCode (c : UserCode) :
    normalizeCode (showCode c.1) = c.1 ∧ normalizeCode c.1 = c.1 := by
  have hself : ∀ s : JsString, (∀ u ∈ s, u ∈ ALPHABET) → normalizeCode s = s := by
    intro s hs
    induction s with
    | nil => rfl
    | cons u s ih =>
      have htail := ih fun v hv => hs v (List.mem_cons_of_mem _ hv)
      rw [normalizeCode] at htail ⊢
      rw [List.flatMap_cons, upperUnit_of_mem (hs u List.mem_cons_self), htail]
      rfl
  have hcode : ∀ u ∈ c.1, u ∈ ALPHABET := by
    intro u hu
    have := List.all_eq_true.1 c.2.2 u hu
    simpa using this
  refine ⟨?_, hself c.1 hcode⟩
  have hdash : normalizeCode (js "-") = [] := by decide
  have happend : ∀ a b, normalizeCode (a ++ b) = normalizeCode a ++ normalizeCode b := fun _ _ => List.flatMap_append
  rw [showCode, happend, happend, hdash, List.append_nil,
    hself _ fun u hu => hcode u (List.mem_of_mem_take hu), hself _ fun u hu => hcode u (List.mem_of_mem_drop hu),
    List.take_append_drop]

/-- The start of a tale says what its request was made with. -/
theorem Tale.begun {p : ℕ} {r : LinkRequest ρ} {l : List (LinkEvent ρ)} (h : Tale hash p r l) {device : JsString}
    {code : UserCode} {d : Details} {key : JsString} {t : ℤ} (hm : .started p device code d key t ∈ l) :
    Begun hash r device code t := by
  cases h <;> simp only [List.mem_cons, LinkEvent.started.injEq, List.not_mem_nil, or_false, reduceCtorEq] at hm <;>
    obtain ⟨-, rfl, rfl, rfl, rfl, rfl⟩ := hm <;> assumption

theorem Told.begun (h : Told hash s.requests s.log) {p : ℕ} {device : JsString} {code : UserCode} {d : Details}
    {key : JsString} {t : ℤ} (hm : .started p device code d key t ∈ s.log) :
    ∃ r, s.requests[p]? = some r ∧ Begun hash r device code t := by
  have hmem := (mem_about (p := p) rfl).2 hm
  rcases h p with ⟨-, hnone⟩ | ⟨r, hr, htale⟩
  · rw [hnone] at hmem
    exact absurd hmem List.not_mem_nil
  · exact ⟨r, hr, htale.begun hmem⟩

/-- A code finds its request while that is neither decided nor expired. -/
private theorem Kept.find_iff (h : Kept hash now s) {t : ℤ} (ht : now ≤ t) {w : Who} (hw : s.limited w t = false)
    {p : ℕ}
    {device : JsString} {code : UserCode} {d : Details} {key : JsString} {t₀ : ℤ}
    (hstarted : .started p device code d key t₀ ∈ s.log) {typed : JsString} (htyped : normalizeCode typed = code.1) :
    (s.find hash typed w t).2 = .ok p ↔ ¬ Decided s.log p ∧ t ≤ t₀ + TTL_MS := by
  have hk := h.sweep ht
  rw [← (sweep_swept s t).log] at hstarted ⊢
  generalize hs' : s.sweep t = s' at hk hstarted ⊢
  obtain ⟨r, hr, hbegun⟩ := hk.told.begun hstarted
  have hfind : (s.find hash typed w t).2 = .ok p ↔ s'.open? hash typed t = some p := by
    unfold find
    rw [hw, hs']
    simp only [Bool.false_eq_true, if_false]
    split
    · rename_i hnone
      rw [hnone]
      exact ⟨fun he => (by cases he), fun he => (by cases he)⟩
    · rename_i q hq
      rw [hq, Except.ok.injEq, Option.some.injEq]
  rw [hfind]
  constructor
  · intro hopen
    obtain ⟨huser, r', hr', -, hexp⟩ := of_open hopen
    obtain rfl := Option.some.inj (hr.symm.trans hr')
    exact ⟨(hk.indexed.user _ _ huser).1, by rw [← hbegun.expires]; exact hexp⟩
  · rintro ⟨hno, hexp⟩
    rw [← hbegun.expires] at hexp
    obtain ⟨-, -, -, -, -, -, -, hstatus, -⟩ := (hk.told.tale hr).waits hno
    have huser := (hk.indexed.live p r hr hexp).2 hno
    unfold open?
    dsimp only
    rw [htyped, ← hbegun.code, huser]
    simp only [code.2.1, if_true, Option.filter_some, hr, Option.any_some, hstatus, hexp, decide_true, Bool.and_self]

/-- After its result was handed out, a device code leads nowhere. -/
theorem Kept.gone (h : Kept hash now s) {t : ℤ} (ht : now ≤ t) {p : ℕ} {device : JsString} {res : ρ}
    (hlen : device.length ≤ 64) (hhanded : .handed p device res ∈ s.log)
    (hone : ∀ p' device' code d key t₀, .started p' device' code d key t₀ ∈ s.log → hash device' = hash device → p' = p) :
    (s.poll hash (some device) t).2 = expired := by
  have hk := h.sweep ht
  rw [← (sweep_swept s t).log] at hhanded hone
  unfold poll
  rw [Option.filter_some, if_pos (by simpa using hlen)]
  dsimp only
  generalize s.sweep t = s' at hk hhanded hone ⊢
  split
  · rfl
  · rename_i q r hheld
    obtain ⟨hq, hr⟩ := of_held hheld
    obtain ⟨r', hr', hdevice⟩ := hk.indexed.device _ _ hq
    obtain rfl := Option.some.inj (hr.symm.trans hr')
    have htale := hk.told.tale hr
    obtain ⟨device', code, d, key, t₀, hm⟩ :
        ∃ device' code d key t₀, .started q device' code d key t₀ ∈ about q s'.log := by
      generalize about q s'.log = l at htale ⊢
      cases htale <;> exact ⟨_, _, _, _, _, List.mem_cons_self⟩
    have hbegun := htale.begun hm
    obtain rfl := hone q device' code d key t₀ ((mem_about rfl).1 hm) (hbegun.device.symm.trans hdevice)
    have hstatus : r.status = .spent := by
      have hmem := (mem_about (p := q) rfl).2 hhanded
      generalize about q s'.log = l at htale hmem
      cases htale <;> simp only [List.mem_cons, List.not_mem_nil, or_false, reduceCtorEq] at hmem
      assumption
    rw [hstatus]

/-- A result that a run hands out is that of its device code, whose hash is that of no other code drawn before. -/
private theorem ownResult_at {steps : List (LinkStep ρ)} (hclock : (steps.map LinkStep.time).Pairwise (· ≤ ·))
    (hdrawn : Runs.Meets (step hash) (fun s c => drawn hash s c = true) init steps)
    (hcodes : ∀ d ∈ polledCodes steps, ∀ d' ∈ drawnCodes steps, hash d = hash d' → d = d')
    {pre post : List (LinkStep ρ)} {c : LinkStep ρ} (he : steps = pre ++ c :: post) {es : List (LinkEvent ρ)}
    (hes : ((Runs.run (step hash) init pre).step hash c).log = (Runs.run (step hash) init pre).log ++ es) {p : ℕ}
    {device : JsString} {res : ρ} (hm : .handed p device res ∈ es) :
    OwnResult (Runs.run (step hash) init pre).log device res p := by
  subst he
  rw [List.map_append, List.pairwise_append] at hclock
  have hbefore : ∀ c' ∈ pre, c'.time ≤ c.time := fun c' hc' =>
    hclock.2.2 _ (List.mem_map_of_mem hc') _ (List.mem_map_of_mem List.mem_cons_self)
  have hpre : Kept hash c.time (Runs.run (step hash) init pre) :=
    kept_of_init hclock.1 (Runs.meets_append.1 hdrawn).1 hbefore
  refine hpre.own le_rfl hes hm fun hop device' code d key t hs => ?_
  refine hcodes device ?_ device' ?_
  · exact List.mem_filterMap.2 ⟨c, List.mem_append_right _ List.mem_cons_self, by simp [hop]⟩
  · have hdrawn' := (fromCalls_run hash pre).started p device' code d key t hs
    rw [drawnCodes, List.filterMap_append]
    exact List.mem_append_left _ hdrawn'

/-- A device code of which no request was approved is answered no result. -/
private theorem Kept.no_result (h : Kept hash now s) {t : ℤ} (ht : now ≤ t) {device : JsString}
    (hdevice : ∀ p device' code d key t₀, .started p device' code d key t₀ ∈ s.log → hash device = hash device' →
      device = device')
    (hno : ∀ p code d key t₀ t', .started p device code d key t₀ ∈ s.log → .decided p true t' ∉ s.log) (res : ρ) :
    (s.poll hash (some device) t).2.body ≠ .result res := by
  intro hbody
  obtain ⟨es, hes, htells⟩ := tells_step hash s ⟨t, .poll (some device)⟩
  obtain ⟨p, hm⟩ : ∃ p, .handed p device res ∈ es := htells.handed_of rfl hbody
  obtain ⟨code, d, key, t₀, t', -, habout⟩ := h.own ht hes hm fun _ device' code d key t₀ hs =>
    hdevice p device' code d key t₀ hs
  have hmem : ∀ e ∈ about p s.log, e ∈ s.log := fun e he => List.mem_of_mem_filter he
  refine hno p code d key t₀ t' (hmem _ ?_) (hmem _ ?_)
  · rw [habout]
    exact List.mem_cons_self
  · rw [habout]
    exact List.mem_cons_of_mem _ List.mem_cons_self

/-- **The device flow**, in every run of a clock that never goes back whose drawn codes differ from those of the
remembered requests and whose device codes are known by their hashes.  Every answer is told by the entries that its call
adds to the log, and a poll is answered a result only of a request of its device code that was approved in time and not
handed out before.  What the log tells of each request is proper; a device code whose result was handed out is answered
as gone, unless it was drawn again, and one of which no request was approved is never answered a result.  A user code,
typed as it was shown, finds its request exactly until that is decided or expires, for a caller under the limit. -/
theorem device_flow (hash : JsString → JsString) {steps : List (LinkStep ρ)}
    (hclock : (steps.map LinkStep.time).Pairwise (· ≤ ·))
    (hdrawn : Runs.Meets (step hash) (fun s c => drawn hash s c = true) init steps)
    (hcodes : ∀ d ∈ polledCodes steps, ∀ d' ∈ drawnCodes steps, hash d = hash d' → d = d') :
    let s := Runs.run (step hash) init steps
    Runs.Meets (step hash) (fun s c => ∃ es, (s.step hash c).log = s.log ++ es ∧ Tells s c (s.answer hash c) es ∧
      ∀ p device res, .handed p device res ∈ es → OwnResult s.log device res p) init steps ∧
    (∀ p, Proper p (about p s.log)) ∧
      ∀ t, (∀ c ∈ steps, c.time ≤ t) →
        (∀ p device res, .handed p device res ∈ s.log →
          (∀ p' code d key t₀, .started p' device code d key t₀ ∈ s.log → p' = p) →
          (s.poll hash (some device) t).2 = expired) ∧
        (∀ device, (∀ d' ∈ drawnCodes steps, hash device = hash d' → device = d') →
          (∀ p code d key t₀ t', .started p device code d key t₀ ∈ s.log → .decided p true t' ∉ s.log) →
          ∀ res, (s.poll hash (some device) t).2.body ≠ .result res) ∧
        ∀ w, s.limited w t = false → ∀ p device code d key t₀, .started p device code d key t₀ ∈ s.log →
          normalizeCode (showCode code.1) = code.1 ∧ ∀ typed, normalizeCode typed = code.1 →
            ((s.find hash typed w t).2 = .ok p ↔ ¬ Decided s.log p ∧ t ≤ t₀ + TTL_MS) ∧
            (s.Finds hash typed w t p ↔ ¬ Decided s.log p ∧ t ≤ t₀ + TTL_MS) := by
  intro s
  have hcalls : FromCalls steps s.log := fromCalls_run hash steps
  have hknown : ∀ p p' device device' code d key t res, .started p device code d key t ∈ s.log →
      .handed p' device' res ∈ s.log → hash device' = hash device → device' = device := fun p p' device device' code d key
      t res hs hh => hcodes _ (hcalls.handed p' device' res hh).1 _ (hcalls.started p device code d key t hs)
  have hkept : ∀ t, (∀ c ∈ steps, c.time ≤ t) → Kept hash t s := fun t hlast => kept_of_init hclock hdrawn hlast
  refine ⟨?_, fun p => ?_, fun t hlast =>
    ⟨fun p device res hh hone => ?_, fun device hdevice hno res => ?_, fun w hw p device code d key t₀ hs =>
      ⟨(normalizeCode_showCode code).1, fun typed htyped => ?_⟩⟩⟩
  · refine Runs.meets_of_at fun pre c post he => ?_
    obtain ⟨es, hes, htells⟩ := tells_step hash (Runs.run (step hash) init pre) c
    exact ⟨es, hes, htells, fun p device res hm => ownResult_at hclock hdrawn hcodes he hes hm⟩
  · obtain ⟨a, b, hbounds⟩ := exists_bounds steps
    rcases (hkept b fun c hc => (hbounds c hc).2).told p with ⟨-, hnone⟩ | ⟨r, -, htale⟩
    · rw [hnone]
      exact ⟨Nat.zero_le 1, Nat.zero_le 1, by simp, Nat.zero_le 1, by simp, by simp⟩
    · refine htale.proper fun device code d key t device' res hs hh => ?_
      exact hknown _ _ _ _ _ _ _ _ _ ((mem_about rfl).1 hs) ((mem_about rfl).1 hh)
  · refine (hkept t hlast).gone le_rfl (hcalls.handed p device res hh).2 hh fun p' device' code d key t₀ hs he => ?_
    obtain rfl := hknown _ _ _ _ _ _ _ _ _ hs hh he.symm
    exact hone p' code d key t₀ hs
  · refine (hkept t hlast).no_result le_rfl (fun p device' code d key t₀ hs => ?_) hno res
    exact hdevice device' (hcalls.started p device' code d key t₀ hs)
  · have hiff := (hkept t hlast).find_iff le_rfl hw hs htyped
    exact ⟨hiff, finds_iff.trans hiff⟩

/-! ### A server is linked -/

private def deviceCode : JsString := js "q83vEjRWeJCrze8SNFZ4kKvN7xI0VniQq83vEjRWeJA"

private def userCode : UserCode := ⟨js "ABCDEFGH", by decide, by decide +kernel⟩

/-- The hashes of the two codes of the run. -/
private def linkHash (s : JsString) : JsString :=
  if s = deviceCode then js "53c90ed83c02ae89d5aa748975ed3b64af5e67792f82a5a9792659be215a5255"
  else if s = userCode.1 then js "9ac2197d9258257b1ae8463e4214e4cd0a578bc1517f2415928b91be4283fc48"
  else s

private def linkSteps : List (LinkStep ℕ) := [
  ⟨0, .start ⟨some (List.replicate 64 0x61), some (js "nas"), some (js "linux"), some (js "1.0"), js "10.0.0.7"⟩
    deviceCode [userCode]⟩,
  ⟨5000, .poll (some deviceCode)⟩,
  ⟨9000, .decide (js "abcd-efgh") true ⟨js "10.0.0.2", js "admin"⟩ fun _ => some 7⟩,
  ⟨10000, .poll (some deviceCode)⟩]

/-- The result is handed out; the next poll is answered as gone. -/
theorem linked_once :
    let s := Runs.run (step linkHash) init linkSteps
    .handed 0 deviceCode 7 ∈ s.log ∧ Proper 0 (about 0 s.log) ∧
      (s.poll linkHash (some deviceCode) 15000).2 = expired := by
  intro s
  have hhanded : .handed 0 deviceCode 7 ∈ s.log := by decide +kernel
  have hone : (s.log.all fun e => placeOf e == some 0) = true := by decide +kernel
  obtain ⟨-, hproper, hlater⟩ := @device_flow ℕ linkHash linkSteps (by decide) (by decide +kernel) (by decide +kernel)
  refine ⟨hhanded, hproper 0, (hlater 15000 (by decide)).1 0 deviceCode 7 hhanded fun p' code d key t₀ hs => ?_⟩
  simpa [placeOf] using List.all_eq_true.1 hone _ hs

end Links

end Servitals
