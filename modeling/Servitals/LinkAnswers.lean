import Servitals.LinkSteps

/-!
# The answers of the link flow

What a call answers is what it adds to the log: codes for a request that was made, a result that is handed out, a decision
with the call of `onApprove`, a wrong code that counts (`tells_step`).  So what the log tells is what the callers were
told.
-/

namespace Servitals

/-- What a call answers. -/
inductive LinkAnswer (ρ : Type*)
  | start (r : Option (LinkReply ρ))
  | poll (r : LinkReply ρ)
  | lookup (r : Except Links.LinkRefusal (Option Links.Lookup))
  | decide (d : Links.Decision ρ)

namespace Links

variable {ρ : Type*} {hash : JsString → JsString}

def answer (hash : JsString → JsString) (s : Links ρ) (c : LinkStep ρ) : LinkAnswer ρ :=
  match c.op with
  | .start ask device codes => .start (s.start hash ask device codes c.time).2
  | .poll device => .poll (s.poll hash device c.time).2
  | .lookup code w => .lookup (s.lookup hash code w c.time).2
  | .decide code approve w onApprove => .decide (s.decide hash code approve w onApprove c.time).2

/-- The entries that an answer to a call adds to the log: each is read off the answer and the call, but for the place of
the request. -/
inductive Tells (s : Links ρ) (c : LinkStep ρ) : LinkAnswer ρ → List (LinkEvent ρ) → Prop
  | started {ask device codes details code e i} (hop : c.op = .start ask device codes) (hdetails : ask.details = some details)
      (hcode : code ∈ codes) : Tells s c (.start (some (reply 200 (.codes device (showCode code.1) e i))))
        [.started s.requests.length device code details (addressKey ask.ip) c.time]
  | notStarted {r} (h : ∀ x ∈ r, ∀ device user e i, x.body ≠ .codes device user e i) : Tells s c (.start r) []
  | handed {device p res} (hop : c.op = .poll (some device)) : Tells s c (.poll (reply 200 (.result res))) [.handed p device res]
  | notHanded {r} (h : ∀ res, r.body ≠ .result res) : Tells s c (.poll r) []
  | wrongCode {code w} (hop : c.op = .lookup code w) : Tells s c (.lookup (.error .unknown)) [.unknown w.keys c.time]
  | looked {r} (h : r ≠ .error .unknown) : Tells s c (.lookup r) []
  | wrongDecision {code approve w onApprove} (hop : c.op = .decide code approve w onApprove) :
      Tells s c (.decide (.refused .unknown)) [.unknown w.keys c.time]
  | tooMany : Tells s c (.decide (.refused .tooMany)) []
  | denied {code w onApprove p host source} (hop : c.op = .decide code false w onApprove) :
      Tells s c (.decide (.denied host source)) [.decided p false c.time]
  | approved {code w onApprove p details res} (hop : c.op = .decide code true w onApprove)
      (hres : onApprove details = some res) :
      Tells s c (.decide (.approved details.host details.ip res)) [.decided p true c.time, .called p details (some res)]
  | threw {code w onApprove p details} (hop : c.op = .decide code true w onApprove) (hnone : onApprove details = none) :
      Tells s c (.decide .threw) [.decided p true c.time, .called p details none]

variable (hash) in
private theorem tells_start (s : Links ρ) (ask : Ask) (device : JsString) (codes : List UserCode) (t : ℤ) :
    ∃ es, (s.start hash ask device codes t).1.log = s.log ++ es ∧
      Tells s ⟨t, .start ask device codes⟩ (.start (s.start hash ask device codes t).2) es := by
  have hlog := (sweep_swept s t).log
  have hrequests := (sweep_swept s t).requests
  unfold start
  split
  · exact ⟨[], by simp, .notStarted (by simp [reply])⟩
  · rename_i details hdetails
    dsimp only
    split
    · exact ⟨[], by simp [hlog], .notStarted (by simp)⟩
    · split
      · exact ⟨[], by simp [hlog], .notStarted (by simp)⟩
      · split
        · exact ⟨[], by simp [hlog], .notStarted (by simp)⟩
        · rename_i code hcode
          refine ⟨[.started s.requests.length device code details (addressKey ask.ip) t], by simp [hlog, hrequests], ?_⟩
          exact .started rfl hdetails (List.mem_of_find?_eq_some hcode)

variable (hash) in
private theorem tells_poll (s : Links ρ) (device : Option JsString) (t : ℤ) :
    ∃ es, (s.poll hash device t).1.log = s.log ++ es ∧ Tells s ⟨t, .poll device⟩ (.poll (s.poll hash device t).2) es := by
  have hlog := (sweep_swept s t).log
  unfold poll
  split
  · exact ⟨[], by simp, .notHanded (by simp [reply])⟩
  · rename_i d hd
    obtain ⟨rfl, -⟩ := Option.filter_eq_some_iff.1 hd
    dsimp only
    split
    · exact ⟨[], by simp [hlog], .notHanded (by simp [expired, reply])⟩
    · rename_i p r _
      split
      · exact ⟨[], by simp [hlog], .notHanded (by simp [expired, reply])⟩
      · exact ⟨[], by simp [hlog], .notHanded (by simp [reply])⟩
      · rename_i res _ _
        exact ⟨[.handed p d res], by simp [hlog], .handed rfl⟩
      · split
        · exact ⟨[], by simp [hlog], .notHanded (by simp [expired, reply])⟩
        · refine ⟨[], by simp [hlog, update], .notHanded fun res => ?_⟩
          dsimp only
          split <;> simp [reply]

variable (hash) in
private theorem tells_lookup (s : Links ρ) (code : JsString) (w : Who) (t : ℤ) :
    ∃ es, (s.lookup hash code w t).1.log = s.log ++ es ∧
      Tells s ⟨t, .lookup code w⟩ (.lookup (s.lookup hash code w t).2) es := by
  have hlog := (sweep_swept s t).log
  unfold lookup
  rcases find_effect hash s code w t with hf | ⟨-, hf⟩ | ⟨p, -, hf⟩
  · rw [hf]
    exact ⟨[], by simp, .looked (by simp [Except.map])⟩
  · rw [hf]
    exact ⟨[.unknown w.keys t], by simp [counted, hlog], .wrongCode rfl⟩
  · rw [hf]
    exact ⟨[], by simp [hlog], .looked (by simp [Except.map])⟩

/-- A code that is found can be decided. -/
private theorem get?_of_find {s : Links ρ} {code : JsString} {w : Who} {t : ℤ} {p : ℕ}
    (h : (s.find hash code w t).2 = .ok p) :
    s.find hash code w t = (s.sweep t, .ok p) ∧ ∃ r, (s.sweep t).requests[p]? = some r := by
  rcases find_effect hash s code w t with hf | ⟨-, hf⟩ | ⟨q, hopen, hf⟩
  · rw [hf] at h
    cases h
  · rw [hf] at h
    cases h
  · rw [hf] at h
    obtain rfl := Except.ok.inj h
    refine ⟨hf, ?_⟩
    unfold open? at hopen
    dsimp only at hopen
    split at hopen
    · obtain ⟨-, hany⟩ := Option.filter_eq_some_iff.1 hopen
      obtain ⟨r, hr, -⟩ := (Option.any_eq_true ..).1 hany
      exact ⟨r, hr⟩
    · cases hopen

variable (hash) in
private theorem tells_decide (s : Links ρ) (code : JsString) (approve : Bool) (w : Who) (onApprove : Details → Option ρ)
    (t : ℤ) : ∃ es, (s.decide hash code approve w onApprove t).1.log = s.log ++ es ∧
      Tells s ⟨t, .decide code approve w onApprove⟩ (.decide (s.decide hash code approve w onApprove t).2) es := by
  have hlog := (sweep_swept s t).log
  cases hfind : (s.find hash code w t).2 with
  | error e =>
    have hrefused : s.decide hash code approve w onApprove t = ((s.find hash code w t).1, .refused e) := by
      unfold decide
      rw [show s.find hash code w t = ((s.find hash code w t).1, .error e) from Prod.ext rfl hfind]
    rw [hrefused]
    rcases find_effect hash s code w t with hf | ⟨-, hf⟩ | ⟨p, -, hf⟩
    · rw [hf] at hfind ⊢
      obtain rfl := Except.error.inj hfind
      exact ⟨[], by simp, .tooMany⟩
    · rw [hf] at hfind ⊢
      obtain rfl := Except.error.inj hfind
      exact ⟨[.unknown w.keys t], by simp [counted, hlog], .wrongDecision rfl⟩
    · rw [hf] at hfind
      cases hfind
  | ok p =>
    obtain ⟨hf, r, hr⟩ := get?_of_find hfind
    unfold decide
    rw [hf]
    dsimp only
    rw [hr]
    cases approve with
    | false => exact ⟨[.decided p false t], by simp [update, hlog], .denied rfl⟩
    | true =>
      simp only [Bool.not_true, Bool.false_eq_true, if_false]
      cases hres : onApprove r.details with
      | none => exact ⟨[.decided p true t, .called p r.details none], by simp [hlog], .threw rfl hres⟩
      | some res =>
        exact ⟨[.decided p true t, .called p r.details (some res)], by simp [update, hlog], .approved rfl hres⟩

/-- Every call adds to the log what it answers. -/
theorem tells_step (hash : JsString → JsString) (s : Links ρ) (c : LinkStep ρ) :
    ∃ es, (s.step hash c).log = s.log ++ es ∧ Tells s c (s.answer hash c) es := by
  obtain ⟨t, op⟩ := c
  cases op with
  | start ask device codes => exact tells_start hash s ask device codes t
  | poll device => exact tells_poll hash s device t
  | lookup code w => exact tells_lookup hash s code w t
  | decide code approve w onApprove => exact tells_decide hash s code approve w onApprove t

/-- The answers of a run, each with its call. -/
def answers (hash : JsString → JsString) : Links ρ → List (LinkStep ρ) → List (LinkStep ρ × LinkAnswer ρ)
  | _, [] => []
  | s, c :: steps => (c, s.answer hash c) :: answers hash (s.step hash c) steps

/-- A result is answered to a device code for a request that is handed out with the answer. -/
theorem Tells.handed_of {s : Links ρ} {c : LinkStep ρ} {device : JsString} {r : LinkReply ρ} {es : List (LinkEvent ρ)}
    (h : Tells s c (.poll r) es) (hop : c.op = .poll (some device)) {res : ρ} (hbody : r.body = .result res) :
    ∃ p, .handed p device res ∈ es := by
  cases h with
  | @handed device' p res' hop' =>
    rw [hop'] at hop
    cases hop
    obtain rfl : res' = res := by simpa [reply] using hbody
    exact ⟨p, List.mem_cons_self⟩
  | notHanded hno => exact absurd hbody (hno res)

/-- The request that a typed code leads to: it is shown, and a decision is noted for it next. -/
def Finds (hash : JsString → JsString) (s : Links ρ) (code : JsString) (w : Who) (t : ℤ) (p : ℕ) : Prop :=
  (∃ r, s.requests[p]? = some r ∧ (s.lookup hash code w t).2 = .ok (some (LinkRequest.shown r))) ∧
    ∀ approve onApprove, ∃ es, (s.decide hash code approve w onApprove t).1.log = s.log ++ .decided p approve t :: es

private theorem finds_of_find {s : Links ρ} {code : JsString} {w : Who} {t : ℤ} {p : ℕ}
    (h : (s.find hash code w t).2 = .ok p) : s.Finds hash code w t p := by
  obtain ⟨hf, r, hr⟩ := get?_of_find h
  refine ⟨⟨r, ?_, ?_⟩, fun approve onApprove => ?_⟩
  · rw [← (sweep_swept s t).requests]
    exact hr
  · unfold lookup
    rw [hf]
    dsimp only [Except.map]
    rw [hr]
    rfl
  · have hlog := (sweep_swept s t).log
    unfold decide
    rw [hf]
    dsimp only
    rw [hr]
    cases approve with
    | false => exact ⟨[], by simp [update, hlog]⟩
    | true => cases hres : onApprove r.details <;> simp [update, hres, hlog]

/-- A refusal is the answer to a lookup and to a decision alike. -/
theorem refused_iff {s : Links ρ} {code : JsString} {w : Who} {t : ℤ} {e : LinkRefusal} :
    ((s.lookup hash code w t).2 = .error e ↔ (s.find hash code w t).2 = .error e) ∧
      ∀ approve onApprove, (s.decide hash code approve w onApprove t).2 = .refused e ↔
        (s.find hash code w t).2 = .error e := by
  cases hfind : (s.find hash code w t).2 with
  | error e' =>
    have hpair : s.find hash code w t = ((s.find hash code w t).1, .error e') := Prod.ext rfl hfind
    unfold lookup decide
    rw [hpair]
    simp [Except.map]
  | ok p =>
    obtain ⟨hf, r, hr⟩ := get?_of_find hfind
    constructor
    · unfold lookup
      rw [hf]
      simp [Except.map]
    · intro approve onApprove
      unfold decide
      rw [hf]
      dsimp only
      rw [hr]
      cases approve with
      | false => simp
      | true => cases hres : onApprove r.details <;> simp [hres]

/-- What a person who types a code is answered is what the code finds. -/
theorem finds_iff {s : Links ρ} {code : JsString} {w : Who} {t : ℤ} {p : ℕ} :
    s.Finds hash code w t p ↔ (s.find hash code w t).2 = .ok p := by
  constructor
  · rintro ⟨⟨r, -, hshown⟩, hdecides⟩
    cases hfind : (s.find hash code w t).2 with
    | error e =>
      rw [refused_iff.1.2 hfind] at hshown
      cases hshown
    | ok q =>
      -- one decision is noted, so both requests are the same
      obtain ⟨es, hes⟩ := hdecides false fun _ => none
      obtain ⟨es', hes'⟩ := (finds_of_find hfind).2 false fun _ => none
      have heq := List.append_cancel_left (hes'.symm.trans hes)
      simp only [List.cons.injEq, LinkEvent.decided.injEq] at heq
      rw [heq.1.1]
  · exact finds_of_find

end Links

end Servitals
