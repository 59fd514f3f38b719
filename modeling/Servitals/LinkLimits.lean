import Servitals.LinkFlow

/-!
# The limits of the link flow

How many requests wait, how often an address starts one and how many wrong codes are answered.  Each counter is a list
of times that a sweep may forget; it stands for the times that the log tells (`Window.Stands`), and these are the times
of the answers, so the bounds are about the answers, over every window.
-/

namespace Servitals

namespace Links

variable {ρ : Type*} {hash : JsString → JsString} {s : Links ρ} {now : ℤ}

/-! ### What the log counts -/

/-- The times of the starts of an address key. -/
def startTimes (k : JsString) (log : List (LinkEvent ρ)) : List ℤ := log.filterMap fun e => match e with
  | .started _ _ _ _ key t => if key = k then some t else none
  | _ => none

/-- The times at which a wrong code counted against a key. -/
def unknownTimes (k : JsString) (log : List (LinkEvent ρ)) : List ℤ := log.filterMap fun e => match e with
  | .unknown keys t => if k ∈ keys then some t else none
  | _ => none

private theorem startTimes_append (k : JsString) (l l' : List (LinkEvent ρ)) :
    startTimes k (l ++ l') = startTimes k l ++ startTimes k l' := List.filterMap_append

private theorem unknownTimes_append (k : JsString) (l l' : List (LinkEvent ρ)) :
    unknownTimes k (l ++ l') = unknownTimes k l ++ unknownTimes k l' := List.filterMap_append

private theorem startTimes_started (k : JsString) (p : ℕ) (device : JsString) (code : UserCode) (d : Details)
    (key : JsString)
    (t : ℤ) : startTimes k [(.started p device code d key t : LinkEvent ρ)] = if key = k then [t] else [] := by
  by_cases hk : key = k <;> simp [startTimes, hk]

private theorem unknownTimes_unknown (k : JsString) (keys : List JsString) (t : ℤ) :
    unknownTimes k [(.unknown keys t : LinkEvent ρ)] = if k ∈ keys then [t] else [] := by
  by_cases hk : k ∈ keys <;> simp [unknownTimes, hk]

/-! ### What the answers count -/

/-- The time at which an address key was given codes. -/
def startedTime (k : JsString) : LinkStep ρ × LinkAnswer ρ → Option ℤ
  | (⟨t, .start ask _ _⟩, .start (some ⟨_, .codes _ _ _ _, _⟩)) => if addressKey ask.ip = k then some t else none
  | _ => none

/-- The time at which a person with the key was answered that a code is unknown. -/
def wrongTime (k : JsString) : LinkStep ρ × LinkAnswer ρ → Option ℤ
  | (⟨t, .lookup _ w⟩, .lookup (.error .unknown)) => if k ∈ w.keys then some t else none
  | (⟨t, .decide _ _ w _⟩, .decide (.refused .unknown)) => if k ∈ w.keys then some t else none
  | _ => none

def startedTimes (k : JsString) (l : List (LinkStep ρ × LinkAnswer ρ)) : List ℤ := l.filterMap (startedTime k)

def wrongTimes (k : JsString) (l : List (LinkStep ρ × LinkAnswer ρ)) : List ℤ := l.filterMap (wrongTime k)

/-- The log counts what one answer counts. -/
theorem Tells.times {c : LinkStep ρ} {a : LinkAnswer ρ} {es : List (LinkEvent ρ)} (h : Tells s c a es) (k : JsString) :
    startTimes k es = (startedTime k (c, a)).toList ∧ unknownTimes k es = (wrongTime k (c, a)).toList := by
  obtain ⟨t, op⟩ := c
  cases h with
  | started hop hdetails hcode =>
    cases hop
    rw [startTimes_started]
    refine ⟨?_, rfl⟩
    simp only [startedTime, reply]
    split <;> rfl
  | notStarted hno =>
    refine ⟨?_, ?_⟩
    · rename_i r
      have hnone : startedTime k (⟨t, op⟩, .start r) = none := by
        unfold startedTime
        split
        · rename_i heq
          simp only [Prod.mk.injEq, LinkStep.mk.injEq, LinkAnswer.start.injEq] at heq
          exact absurd rfl (hno _ heq.2 _ _ _ _)
        · rfl
      rw [hnone]
      rfl
    · cases op <;> rfl
  | handed => cases op <;> exact ⟨rfl, rfl⟩
  | notHanded => cases op <;> exact ⟨rfl, rfl⟩
  | wrongCode hop =>
    cases hop
    rw [unknownTimes_unknown]
    refine ⟨rfl, ?_⟩
    simp only [wrongTime]
    split <;> rfl
  | @looked r hno =>
    refine ⟨by cases op <;> rfl, ?_⟩
    have hnone : wrongTime k (⟨t, op⟩, .lookup r) = none := by
      unfold wrongTime
      split
      · rename_i heq
        simp only [Prod.mk.injEq, LinkAnswer.lookup.injEq] at heq
        exact absurd heq.2 hno
      · rename_i heq
        simp at heq
      · rfl
    rw [hnone]
    rfl
  | wrongDecision hop =>
    cases hop
    rw [unknownTimes_unknown]
    refine ⟨rfl, ?_⟩
    simp only [wrongTime]
    split <;> rfl
  | tooMany => cases op <;> exact ⟨rfl, rfl⟩
  | denied => cases op <;> exact ⟨rfl, rfl⟩
  | approved => cases op <;> exact ⟨rfl, rfl⟩
  | threw => cases op <;> exact ⟨rfl, rfl⟩

/-- The log counts what the answers of a run count. -/
private theorem times_run (hash : JsString → JsString) (s : Links ρ) (steps : List (LinkStep ρ)) (k : JsString) :
    startTimes k (Runs.run (step hash) s steps).log = startTimes k s.log ++ startedTimes k (answers hash s steps) ∧
      unknownTimes k (Runs.run (step hash) s steps).log = unknownTimes k s.log ++ wrongTimes k (answers hash s steps) := by
  induction steps generalizing s with
  | nil => exact ⟨(List.append_nil _).symm, (List.append_nil _).symm⟩
  | cons c steps ih =>
    obtain ⟨es, hlog, htells⟩ := tells_step hash s c
    obtain ⟨hstarts, hwrong⟩ := htells.times k
    have hsplit : ∀ f : LinkStep ρ × LinkAnswer ρ → Option ℤ, (answers hash s (c :: steps)).filterMap f =
        (f (c, s.answer hash c)).toList ++ (answers hash (s.step hash c) steps).filterMap f := by
      intro f
      rw [answers, List.filterMap_cons]
      cases f (c, s.answer hash c) <;> rfl
    rw [Runs.run_cons, (ih _).1, (ih _).2, hlog, startTimes_append, unknownTimes_append, hstarts, hwrong]
    simp only [startedTimes, wrongTimes, hsplit, List.append_assoc, and_self]

/-- The request waits for a decision: its code leads to it and it has not expired. -/
def Waits (s : Links ρ) (p : ℕ) (t : ℤ) : Prop :=
  (∃ h, s.byUser.get? h = some p) ∧ ∃ r, s.requests[p]? = some r ∧ r.status = .pending ∧ t ≤ r.expires

/-- Neither map of counters is full. -/
def roomy (s : Links ρ) : Bool := s.starts.entries.length < MAX_TRACKED && s.entries.entries.length < MAX_TRACKED

/-! ### Counters -/

private theorem length_le_record (m : OMap JsString (List ℤ)) (k : JsString) (W t : ℤ) :
    m.entries.length ≤ (record m k W t).entries.length := by
  unfold record
  split
  · exact le_rfl
  · exact OMap.length_le_set m k _

/-- A map that is not full after it counts did count. -/
private theorem get?_record {m : OMap JsString (List ℤ)} {k : JsString} {W t : ℤ}
    (h : (record m k W t).entries.length < MAX_TRACKED) (x : JsString) :
    (record m k W t).get? x = if x = k then some (recent m k W t ++ [t]) else m.get? x := by
  have hle := length_le_record m k W t
  have hroom : ¬ ((!m.contains k && MAX_TRACKED ≤ m.entries.length) = true) := by
    intro hfull
    rw [Bool.and_eq_true, decide_eq_true_eq] at hfull
    omega
  unfold record
  rw [if_neg hroom]
  exact OMap.get?_set m k x _

/-- What a map remembers of a key. -/
abbrev remembered (m : OMap JsString (List ℤ)) (k : JsString) : List ℤ := (m.get? k).getD []

private theorem remembered_pruned {m : OMap JsString (List ℤ)} {k : JsString} {W c t : ℤ} {l : List ℤ}
    (h : Window.Stands W c (remembered m k) l) (hW : W ≤ START_WINDOW_MS) (ht : c ≤ t) :
    Window.Stands W t (remembered (pruned m t) k) l := by
  unfold remembered pruned
  rw [OMap.get?_filter]
  unfold remembered at h
  cases hget : m.get? k with
  | none =>
    rw [hget] at h
    exact h.later ht
  | some v =>
    rw [hget, Option.getD_some] at h
    by_cases hv : v.any (fun x => t - x < START_WINDOW_MS) = true
    · rw [Option.filter_some, if_pos hv]
      exact h.later ht
    · rw [Option.filter_some, if_neg hv]
      apply h.forget ht hW
      intro x hx hyoung
      exact hv (List.any_eq_true.2 ⟨x, hx, decide_eq_true hyoung⟩)

private theorem remembered_record {m : OMap JsString (List ℤ)} {k : JsString} {W c t : ℤ} {l : List ℤ}
    (h : Window.Stands W c (remembered m k) l) (ht : c ≤ t) (hroom : (record m k W t).entries.length < MAX_TRACKED) :
    Window.Stands W t (remembered (record m k W t) k) (l ++ [t]) := by
  unfold remembered
  rw [get?_record hroom, if_pos rfl]
  exact h.push ht

private theorem remembered_record_of_ne {m : OMap JsString (List ℤ)} {k x : JsString} (hx : x ≠ k) {W t : ℤ}
    (hroom : (record m k W t).entries.length < MAX_TRACKED) :
    remembered (record m k W t) x = remembered m x := by
  unfold remembered
  rw [get?_record hroom, if_neg hx]

/-- The keys of a person differ: one begins with "ip:", the other with "account:". -/
theorem Who.keys_nodup (w : Who) : w.keys.Nodup := by
  unfold Who.keys
  rw [List.nodup_cons, List.mem_singleton]
  refine ⟨fun h => ?_, List.nodup_singleton _⟩
  have hip : js "ip:" = 0x69 :: js "p:" := by decide
  have haccount : js "account:" = 0x61 :: js "ccount:" := by decide
  rw [hip, haccount, List.cons_append, List.cons_append, List.cons.injEq] at h
  exact absurd h.1 (by decide)

/-- Counting against every one of the keys. -/
private theorem remembered_counted {keys : List JsString} (hnodup : keys.Nodup) {m : OMap JsString (List ℤ)} {W t : ℤ}
    (hroom : (keys.foldl (fun m k => record m k W t) m).entries.length < MAX_TRACKED) (x : JsString) :
    remembered (keys.foldl (fun m k => record m k W t) m) x =
      if x ∈ keys then Window.recent W t (remembered m x) ++ [t] else remembered m x := by
  induction keys generalizing m with
  | nil => rfl
  | cons k keys ih =>
    rw [List.nodup_cons] at hnodup
    have hgrow : ∀ (ks : List JsString) (m : OMap JsString (List ℤ)),
        m.entries.length ≤ (ks.foldl (fun m k => record m k W t) m).entries.length := by
      intro ks
      induction ks with
      | nil => exact fun m => le_rfl
      | cons k ks ih => exact fun m => (length_le_record m k W t).trans (ih _)
    have hfirst : (record m k W t).entries.length < MAX_TRACKED := (hgrow keys _).trans_lt hroom
    rw [List.foldl_cons] at hroom ⊢
    rw [ih hnodup.2 hroom]
    by_cases hx : x = k
    · subst hx
      rw [if_neg hnodup.1, if_pos List.mem_cons_self]
      unfold remembered
      rw [get?_record hfirst, if_pos rfl]
      rfl
    · rw [remembered_record_of_ne hx hfirst]
      simp only [List.mem_cons, hx, false_or]

/-! ### The invariant -/

/-- The counters stand for what the log tells, and the bounds hold. -/
structure Counts (now : ℤ) (s : Links ρ) : Prop where
  starts : ∀ k, Window.Stands START_WINDOW_MS now (remembered s.starts k) (startTimes k s.log)
  entries : ∀ k, Window.Stands ENTRY_WINDOW_MS now (remembered s.entries k) (unknownTimes k s.log)
  started : ∀ k, Window.Limited START_WINDOW_MS START_LIMIT (startTimes k s.log)
  answered : ∀ k, Window.Limited ENTRY_WINDOW_MS ENTRY_LIMIT (unknownTimes k s.log)
  startedBefore : ∀ k, ∀ t ∈ startTimes k s.log, t ≤ now
  answeredBefore : ∀ k, ∀ t ∈ unknownTimes k s.log, t ≤ now
  pending : s.byUser.entries.length ≤ MAX_PENDING
  waiting : ∀ k t, now ≤ t → s.waiting k t ≤ PENDING_PER_ADDRESS
  led : ∀ p ∈ s.byUser.values, p < s.requests.length

private theorem counts_init (now : ℤ) : Counts now (init : Links ρ) where
  starts _ := .refl _ _ _
  entries _ := .refl _ _ _
  started _ := Window.limited_nil _ _
  answered _ := Window.limited_nil _ _
  startedBefore _ _ h := absurd h List.not_mem_nil
  answeredBefore _ _ h := absurd h List.not_mem_nil
  pending := Nat.zero_le _
  waiting _ _ _ := Nat.zero_le _
  led _ h := absurd h List.not_mem_nil

/-- Fewer codes lead to requests, and these wait no longer than before. -/
structure Fewer (s s' : Links ρ) : Prop where
  users : s'.byUser.entries.Sublist s.byUser.entries
  requests : ∀ (p : ℕ) (r' : LinkRequest ρ), s'.requests[p]? = some r' → ∃ r : LinkRequest ρ, s.requests[p]? = some r ∧
    r'.key = r.key ∧ r'.expires = r.expires ∧ (r'.status = .pending → r.status = .pending)
  length : s.requests.length ≤ s'.requests.length

theorem Fewer.refl (s : Links ρ) : Fewer s s := ⟨.refl _, fun _ r h => ⟨r, h, rfl, rfl, id⟩, le_rfl⟩

theorem Fewer.erase {s s' : Links ρ} (h : Fewer s s') (k : JsString) :
    Fewer s { s' with byUser := s'.byUser.erase k } := ⟨List.filter_sublist.trans h.users, h.requests, h.length⟩

theorem Fewer.update {s s' : Links ρ} (h : Fewer s s') {p : ℕ} {r r' : LinkRequest ρ} (hr : s'.requests[p]? = some r)
    (hkey : r'.key = r.key) (hexp : r'.expires = r.expires) (hstatus : r'.status = .pending → r.status = .pending) :
    Fewer s (s'.update p r') := by
  refine ⟨h.users, fun q r₁ hq => ?_, ?_⟩
  · have hlt : p < s'.requests.length := (List.getElem?_eq_some_iff.1 hr).1
    by_cases hqp : q = p
    · subst hqp
      rw [Links.update, List.getElem?_set_self hlt] at hq
      obtain rfl := Option.some.inj hq
      obtain ⟨r₀, hr₀, hk, he, hs⟩ := h.requests q r hr
      exact ⟨r₀, hr₀, hkey.trans hk, hexp.trans he, fun hp => hs (hstatus hp)⟩
    · rw [Links.update, List.getElem?_set_ne (Ne.symm hqp)] at hq
      exact h.requests q r₁ hq
  · rw [Links.update, List.length_set]
    exact h.length

private theorem Fewer.of_eq {s s' s'' : Links ρ} (h : Fewer s s') (husers : s''.byUser = s'.byUser)
    (hrequests : s''.requests = s'.requests) : Fewer s s'' := by
  refine ⟨?_, ?_, ?_⟩
  · rw [husers]
    exact h.users
  · rw [hrequests]
    exact h.requests
  · rw [hrequests]
    exact h.length

theorem Fewer.waiting {s s' : Links ρ} (h : Fewer s s') (k : JsString) {t t' : ℤ} (ht : t ≤ t') :
    s'.waiting k t' ≤ s.waiting k t := by
  unfold Links.waiting
  refine (OMap.values_sublist h.users).countP_le.trans (List.countP_mono_left fun p _ hp => ?_)
  rw [Option.any_eq_true] at hp ⊢
  obtain ⟨r', hr', hc⟩ := hp
  simp only [Bool.and_eq_true, beq_iff_eq, decide_eq_true_eq] at hc
  obtain ⟨r, hr, hkey, hexp, hstatus⟩ := h.requests p r' hr'
  refine ⟨r, hr, ?_⟩
  simp only [Bool.and_eq_true, beq_iff_eq, decide_eq_true_eq]
  refine ⟨⟨hkey.symm.trans hc.1.1, hstatus hc.1.2⟩, ?_⟩
  omega

/-- What counts nothing and makes fewer wait keeps the invariant. -/
private theorem Counts.fewer {s s' : Links ρ} (h : Counts now s) (hf : Fewer s s') {t : ℤ} (ht : now ≤ t)
    (hstarts : s'.starts = s.starts ∨ s'.starts = pruned s.starts t)
    (hentries : s'.entries = s.entries ∨ s'.entries = pruned s.entries t)
    (hlog : ∀ k, startTimes k s'.log = startTimes k s.log ∧ unknownTimes k s'.log = unknownTimes k s.log) :
    Counts t s' where
  starts k := by
    rw [(hlog k).1]
    rcases hstarts with he | he
    · rw [he]
      exact (h.starts k).later ht
    · rw [he]
      exact remembered_pruned (h.starts k) le_rfl ht
  entries k := by
    rw [(hlog k).2]
    rcases hentries with he | he
    · rw [he]
      exact (h.entries k).later ht
    · rw [he]
      exact remembered_pruned (h.entries k) (by decide) ht
  started k := by
    rw [(hlog k).1]
    exact h.started k
  answered k := by
    rw [(hlog k).2]
    exact h.answered k
  startedBefore k x hx := by
    rw [(hlog k).1] at hx
    exact (h.startedBefore k x hx).trans ht
  answeredBefore k x hx := by
    rw [(hlog k).2] at hx
    exact (h.answeredBefore k x hx).trans ht
  pending := hf.users.length_le.trans h.pending
  waiting k t' ht' := (hf.waiting k le_rfl).trans (h.waiting k t' (ht.trans ht'))
  led p hp := (h.led p ((OMap.values_sublist hf.users).subset hp)).trans_le hf.length

/-- A sweep forgets no count inside its window. -/
theorem Counts.sweep (h : Counts now s) {t : ℤ} (ht : now ≤ t) : Counts t (s.sweep t) := by
  have hswept := sweep_swept s t
  apply h.fewer ?_ ht hswept.starts hswept.entries
  · intro k
    rw [hswept.log]
    exact ⟨rfl, rfl⟩
  · refine ⟨hswept.sublist, ?_, ?_⟩
    · rw [hswept.requests]
      exact fun _ r hr => ⟨r, hr, rfl, rfl, id⟩
    · rw [hswept.requests]

/-! ### One call -/

private theorem Counts.limited_iff (h : Counts now s) (w : Who) {t : ℤ} (ht : now ≤ t) : s.limited w t = true ↔
    ∃ k ∈ w.keys, ENTRY_LIMIT ≤ (Window.recent ENTRY_WINDOW_MS t (unknownTimes k s.log)).length := by
  unfold limited
  rw [List.any_eq_true]
  constructor
  · rintro ⟨k, hk, hle⟩
    rw [decide_eq_true_eq] at hle
    exact ⟨k, hk, by rw [← h.entries k t ht]; exact hle⟩
  · rintro ⟨k, hk, hle⟩
    rw [← h.entries k t ht] at hle
    exact ⟨k, hk, decide_eq_true hle⟩

private theorem waiting_begun (h : Counts now s) {device : JsString} {code : UserCode} {d : Details}
    (hfree : s.byUser.get? (hash code.1) = none) (k : JsString) (t : ℤ) :
    (s.begun hash device code d now).waiting k t ≤ s.waiting k t + if addressKey d.ip = k then 1 else 0 := by
  have hvalues : (s.begun hash device code d now).byUser.values = s.byUser.values ++ [s.requests.length] := by
    show List.map Prod.snd (s.byUser.set (hash code.1) s.requests.length).entries = _
    rw [OMap.entries_set_of_none hfree, List.map_append]
    rfl
  unfold waiting
  rw [hvalues, List.countP_append]
  apply Nat.add_le_add
  · apply List.countP_mono_left
    intro p hp hc
    have hget : (s.begun hash device code d now).requests[p]? = s.requests[p]? :=
      List.getElem?_append_left (h.led p hp)
    rwa [hget] at hc
  · split
    · exact List.countP_le_length
    · rename_i hk
      have hlast : (s.begun hash device code d now).requests[s.requests.length]? =
          some (fresh hash device code d now) := List.getElem?_concat_length
      have hkey : (addressKey d.ip == k) = false := beq_eq_false_iff_ne.2 hk
      rw [List.countP_singleton, hlast, Option.any_some]
      simp [fresh, hkey]

private theorem Counts.begin (h : Counts now s) {device : JsString} {code : UserCode} {d : Details}
    (hfree : s.byUser.get? (hash code.1) = none) (hbusy : s.byUser.entries.length < MAX_PENDING)
    (hwaiting : s.waiting (addressKey d.ip) now < PENDING_PER_ADDRESS)
    (hstarts : (recent s.starts (addressKey d.ip) START_WINDOW_MS now).length < START_LIMIT)
    (hroom : (s.begun hash device code d now).roomy = true) : Counts now (s.begun hash device code d now) := by
  simp only [roomy, Bool.and_eq_true, decide_eq_true_eq] at hroom
  have hlog : ∀ k, startTimes k (s.begun hash device code d now).log =
      startTimes k s.log ++ if addressKey d.ip = k then [now] else [] := by
    intro k
    show startTimes k (s.log ++ _) = _
    rw [startTimes_append, startTimes_started]
  have hunknown : ∀ k, unknownTimes k (s.begun hash device code d now).log = unknownTimes k s.log := by
    intro k
    show unknownTimes k (s.log ++ _) = _
    rw [unknownTimes_append]
    exact List.append_nil _
  have hmap : (s.begun hash device code d now).starts = record s.starts (addressKey d.ip) START_WINDOW_MS now := rfl
  constructor
  · intro k
    rw [hlog, hmap]
    split
    · rename_i hk
      subst hk
      exact remembered_record (h.starts _) le_rfl hroom.1
    · rename_i hk
      rw [remembered_record_of_ne (Ne.symm hk) hroom.1, List.append_nil]
      exact h.starts k
  · intro k
    rw [hunknown]
    exact h.entries k
  · intro k
    rw [hlog]
    split
    · rename_i hk
      subst hk
      apply (h.started _).push (h.startedBefore _)
      rw [← h.starts _ now le_rfl]
      exact hstarts
    · rw [List.append_nil]
      exact h.started k
  · intro k
    rw [hunknown]
    exact h.answered k
  · intro k x hx
    rw [hlog, List.mem_append] at hx
    rcases hx with hx | hx
    · exact h.startedBefore k x hx
    · split at hx
      · exact (List.mem_singleton.1 hx).le
      · cases hx
  · intro k
    rw [hunknown]
    exact h.answeredBefore k
  · show (s.byUser.set (hash code.1) s.requests.length).entries.length ≤ _
    rw [OMap.entries_set_of_none hfree, List.length_append, List.length_singleton]
    exact hbusy
  · intro k t ht
    have hle := @waiting_begun _ _ _ _ h device _ d hfree k t
    have hbefore := (Fewer.refl s).waiting k ht
    have hkept := h.waiting k t ht
    split at hle
    · rename_i hk
      subst hk
      omega
    · omega
  · intro p hp
    show p < (s.requests ++ _).length
    rw [List.length_append, List.length_singleton]
    rw [OMap.mem_values_iff] at hp
    obtain ⟨k, hk⟩ := hp
    have hk : (s.byUser.set (hash code.1) s.requests.length).get? k = some p := hk
    rw [OMap.get?_set] at hk
    split at hk
    · cases hk
      omega
    · have := h.led p (OMap.mem_values_iff.2 ⟨k, hk⟩)
      omega

private theorem Counts.count (h : Counts now s) {w : Who}
    (hunder : ∀ k ∈ w.keys, (Window.recent ENTRY_WINDOW_MS now (unknownTimes k s.log)).length < ENTRY_LIMIT)
    (hroom : (s.counted w now).roomy = true) : Counts now (s.counted w now) := by
  simp only [roomy, Bool.and_eq_true, decide_eq_true_eq] at hroom
  have hstarts : ∀ k, startTimes k (s.counted w now).log = startTimes k s.log := by
    intro k
    show startTimes k (s.log ++ _) = _
    rw [startTimes_append]
    exact List.append_nil _
  have hlog : ∀ k, unknownTimes k (s.counted w now).log =
      unknownTimes k s.log ++ if k ∈ w.keys then [now] else [] := by
    intro k
    show unknownTimes k (s.log ++ _) = _
    rw [unknownTimes_append, unknownTimes_unknown]
  have hmap : ∀ k, remembered (s.counted w now).entries k = if k ∈ w.keys
      then Window.recent ENTRY_WINDOW_MS now (remembered s.entries k) ++ [now] else remembered s.entries k :=
    remembered_counted w.keys_nodup hroom.2
  constructor
  · intro k
    rw [hstarts]
    exact h.starts k
  · intro k
    rw [hlog, hmap]
    split
    · exact (h.entries k).push le_rfl
    · rw [List.append_nil]
      exact h.entries k
  · intro k
    rw [hstarts]
    exact h.started k
  · intro k
    rw [hlog]
    split
    · rename_i hk
      exact (h.answered k).push (h.answeredBefore k) (hunder k hk)
    · rw [List.append_nil]
      exact h.answered k
  · intro k
    rw [hstarts]
    exact h.startedBefore k
  · intro k x hx
    rw [hlog, List.mem_append] at hx
    rcases hx with hx | hx
    · exact h.answeredBefore k x hx
    · split at hx
      · exact (List.mem_singleton.1 hx).le
      · cases hx
  · exact h.pending
  · exact h.waiting
  · exact h.led

theorem Counts.step (h : Counts now s) {c : LinkStep ρ} (hc : now ≤ c.time)
    (hroom : (s.step hash c).roomy = true) : Counts c.time (s.step hash c) := by
  have hk := h.sweep hc
  have heffect := step_effect hash s c
  generalize s.step hash c = s' at heffect hroom
  -- entries of the log about a decision or a result count nothing
  have hquiet : ∀ (s' : Links ρ) (es : List (LinkEvent ρ)), Fewer (s.sweep c.time) s' →
      s'.starts = (s.sweep c.time).starts → s'.entries = (s.sweep c.time).entries →
      s'.log = (s.sweep c.time).log ++ es → (∀ k, startTimes k es = [] ∧ unknownTimes k es = []) →
      Counts c.time s' := by
    intro s' es hf hstarts hentries hlog hes
    apply hk.fewer hf le_rfl (Or.inl hstarts) (Or.inl hentries)
    intro k
    rw [hlog, startTimes_append, unknownTimes_append, (hes k).1, (hes k).2, List.append_nil, List.append_nil]
    exact ⟨rfl, rfl⟩
  cases heffect with
  | same => exact h.fewer (.refl s) hc (Or.inl rfl) (Or.inl rfl) fun _ => ⟨rfl, rfl⟩
  | swept => exact hk
  | begun ask device codes code details hop hcode hfree hbusy hwaiting hstarts =>
    exact hk.begin hfree hbusy hwaiting hstarts hroom
  | counted w hlimited =>
    refine hk.count (fun k hkey => ?_) hroom
    by_contra hge
    rw [not_lt, (sweep_swept s c.time).log] at hge
    rw [(h.limited_iff w hc).2 ⟨k, hkey, hge⟩] at hlimited
    cases hlimited
  | polled p r hr =>
    exact hquiet _ [] ((Fewer.refl _).update hr rfl rfl id) rfl rfl (List.append_nil _).symm fun _ => ⟨rfl, rfl⟩
  | handed device p r res hop hlen hheld hstatus hres =>
    have hf : Fewer (s.sweep c.time) ((s.sweep c.time).update p (without r .spent)) :=
      (Fewer.refl _).update (of_held hheld).2 rfl rfl fun he => (by cases he)
    exact hquiet _ _ (hf.of_eq rfl rfl) rfl rfl rfl fun _ => ⟨rfl, rfl⟩
  | denied code p r hopen hr =>
    have hf : Fewer (s.sweep c.time) ((s.sweep c.time).taken p r false c.time) :=
      ((Fewer.refl _).erase r.userHash).of_eq rfl rfl
    have hf' : Fewer (s.sweep c.time) (((s.sweep c.time).taken p r false c.time).update p (without r .denied)) :=
      hf.update hr rfl rfl fun he => (by cases he)
    exact hquiet _ _ hf' rfl rfl rfl fun _ => ⟨rfl, rfl⟩
  | approved code p r res hopen hr =>
    have hf : Fewer (s.sweep c.time) ((s.sweep c.time).taken p r true c.time) :=
      ((Fewer.refl _).erase r.userHash).of_eq rfl rfl
    have hf' : Fewer (s.sweep c.time)
        (((s.sweep c.time).taken p r true c.time).update p { r with result := some res, status := .approved }) :=
      hf.update hr rfl rfl fun he => (by cases he)
    exact hquiet _ _ (hf'.of_eq rfl rfl) rfl rfl (List.append_assoc ..) fun _ => ⟨rfl, rfl⟩
  | threw code p r hopen hr =>
    have hf : Fewer (s.sweep c.time) ((s.sweep c.time).taken p r true c.time) :=
      ((Fewer.refl _).erase r.userHash).of_eq rfl rfl
    exact hquiet _ _ (hf.of_eq rfl rfl) rfl rfl (List.append_assoc ..) fun _ => ⟨rfl, rfl⟩

/-! ### Runs -/

private theorem counts_run {steps : List (LinkStep ρ)} (h : Counts now s) (hnow : ∀ c ∈ steps, now ≤ c.time)
    (hclock : (steps.map LinkStep.time).Pairwise (· ≤ ·))
    (hroom : Runs.Meets (step hash) (fun s c => (s.step hash c).roomy = true) s steps) {t : ℤ} (ht : now ≤ t)
    (hlast : ∀ c ∈ steps, c.time ≤ t) : Counts t (Runs.run (step hash) s steps) := by
  induction steps generalizing s now with
  | nil => exact h.fewer (.refl s) ht (Or.inl rfl) (Or.inl rfl) fun _ => ⟨rfl, rfl⟩
  | cons c steps ih =>
    rw [List.map_cons, List.pairwise_cons] at hclock
    have hstep := h.step (hnow c List.mem_cons_self) hroom.1
    refine ih hstep (fun c' hc' => ?_) hclock.2 hroom.2 (hlast c List.mem_cons_self)
      fun c' hc' => hlast c' (List.mem_cons_of_mem _ hc')
    exact hclock.1 c'.time (List.mem_map_of_mem hc')

/-- Distinct requests that wait are no more than the codes that lead to requests. -/
theorem Counts.length_le (h : Counts now s) {t : ℤ} (ht : now ≤ t) {ps : List ℕ} (hps : ps.Nodup)
    (hwait : ∀ p ∈ ps, s.Waits p t) : ps.length ≤ MAX_PENDING ∧
      ∀ k, (∀ p ∈ ps, (s.requests[p]?).any (fun r => r.key == k) = true) → ps.length ≤ PENDING_PER_ADDRESS := by
  have hsub : ps ⊆ s.byUser.values := fun p hp => OMap.mem_values_iff.2 (hwait p hp).1
  constructor
  · have hle := (List.subperm_of_subset hps hsub).length_le
    rw [OMap.values, List.length_map] at hle
    exact hle.trans h.pending
  · intro k hk
    refine le_trans ?_ (h.waiting k t ht)
    unfold Links.waiting
    rw [List.countP_eq_length_filter]
    apply (List.subperm_of_subset hps fun p hp => List.mem_filter.2 ⟨hsub hp, ?_⟩).length_le
    obtain ⟨r, hr, hstatus, hexp⟩ := (hwait p hp).2
    have hkey := hk p hp
    rw [hr, Option.any_some] at hkey ⊢
    simp only [hkey, hstatus, hexp, decide_true, Bool.and_self]

/-- Every code is refused when a key has too many wrong ones, and only then. -/
private theorem find_tooMany_iff {code : JsString} {w : Who} {t : ℤ} :
    (s.find hash code w t).2 = .error .tooMany ↔ s.limited w t = true := by
  unfold find
  split
  · rename_i hlimited
    exact iff_of_true rfl hlimited
  · rename_i hlimited
    apply iff_of_false _ hlimited
    dsimp only
    split <;> intro he <;> cases he

/-- A code that finds its request counts nothing. -/
private theorem unknownTimes_of_found {code : JsString} {w : Who} {t : ℤ} {p : ℕ}
    (hfound : (s.find hash code w t).2 = .ok p) (k : JsString) :
    unknownTimes k (s.lookup hash code w t).1.log = unknownTimes k s.log ∧
      ∀ approve onApprove, unknownTimes k (s.decide hash code approve w onApprove t).1.log = unknownTimes k s.log := by
  have hfind : s.find hash code w t = (s.sweep t, .ok p) := by
    rcases find_effect hash s code w t with hf | ⟨-, hf⟩ | ⟨q, -, hf⟩
    · rw [hf] at hfound
      cases hfound
    · rw [hf] at hfound
      cases hfound
    · rw [hf] at hfound ⊢
      rw [Except.ok.inj hfound]
  have hlog := (sweep_swept s t).log
  constructor
  · unfold lookup
    rw [hfind]
    exact congrArg (unknownTimes k) hlog
  · intro approve onApprove
    unfold decide
    rw [hfind]
    dsimp only
    split
    · exact congrArg (unknownTimes k) hlog
    · have hdecided : ∀ a, unknownTimes k ((s.sweep t).log ++ [.decided p a t]) = unknownTimes k s.log := by
        intro a
        rw [unknownTimes_append, hlog]
        exact List.append_nil _
      rename_i r hr
      have hcalled : ∀ o, unknownTimes k ((s.sweep t).log ++ [.decided p approve t] ++ [.called p r.details o]) =
          unknownTimes k s.log := by
        intro o
        rw [unknownTimes_append, hdecided]
        exact List.append_nil _
      split
      · exact hdecided approve
      · split <;> exact hcalled _

/-- **The limits**, in every run of a clock that never goes back in which the maps of counters are never full; what the
log tells is what the calls answered.  At most 100 requests wait, at most 5 of one address key; when the drawn codes
differ from those of the remembered requests, all that are neither decided nor expired are among them.  No hour holds
more than 20 starts of an address key, and no 10 minutes more than 10 codes answered as unknown to an account or an
address key; with 10 of them every code is refused, shown or decided, and only then.  A code that finds its request counts
nothing, and a sweep forgets no count inside its window. -/
theorem link_limits (hash : JsString → JsString) {steps : List (LinkStep ρ)}
    (hclock : (steps.map LinkStep.time).Pairwise (· ≤ ·))
    (hroom : Runs.Meets (step hash) (fun s c => (s.step hash c).roomy = true) init steps) {t : ℤ}
    (hlast : ∀ c ∈ steps, c.time ≤ t) :
    let s := Runs.run (step hash) init steps
    let told := answers hash init steps
    Runs.Meets (step hash) (fun s c => ∃ es, (s.step hash c).log = s.log ++ es ∧ Tells s c (s.answer hash c) es) init
      steps ∧
    (∀ ps : List ℕ, ps.Nodup → (∀ p ∈ ps, s.Waits p t) → ps.length ≤ MAX_PENDING ∧
      ∀ k, (∀ p ∈ ps, (s.requests[p]?).any (fun r => r.key == k) = true) → ps.length ≤ PENDING_PER_ADDRESS) ∧
    (Runs.Meets (step hash) (fun s c => drawn hash s c = true) init steps →
      ∀ p, s.Waits p t ↔ ∃ r, s.requests[p]? = some r ∧ ¬ Decided s.log p ∧ t ≤ r.expires) ∧
    (∀ k, startTimes k s.log = startedTimes k told ∧ unknownTimes k s.log = wrongTimes k told) ∧
    (∀ k, Window.Limited START_WINDOW_MS START_LIMIT (startedTimes k told)) ∧
    (∀ k, Window.Limited ENTRY_WINDOW_MS ENTRY_LIMIT (wrongTimes k told)) ∧
    (∀ code w, ((s.lookup hash code w t).2 = .error .tooMany ↔
        ∃ k ∈ w.keys, ENTRY_LIMIT ≤ (Window.recent ENTRY_WINDOW_MS t (wrongTimes k told)).length) ∧
      ∀ approve onApprove, (s.decide hash code approve w onApprove t).2 = .refused .tooMany ↔
        ∃ k ∈ w.keys, ENTRY_LIMIT ≤ (Window.recent ENTRY_WINDOW_MS t (wrongTimes k told)).length) ∧
    (∀ code w p, (s.find hash code w t).2 = .ok p → ∀ k,
      unknownTimes k (s.lookup hash code w t).1.log = unknownTimes k s.log ∧
      ∀ approve onApprove, unknownTimes k (s.decide hash code approve w onApprove t).1.log = unknownTimes k s.log) ∧
    ∀ k t', t ≤ t' → recent (s.sweep t).starts k START_WINDOW_MS t' = recent s.starts k START_WINDOW_MS t' ∧
      recent (s.sweep t).entries k ENTRY_WINDOW_MS t' = recent s.entries k ENTRY_WINDOW_MS t' := by
  intro s told
  obtain ⟨a, b, hbounds⟩ := exists_bounds steps
  have hfirst : ∀ c ∈ steps, min a t ≤ c.time := fun c hc => (min_le_left a t).trans (hbounds c hc).1
  have hcounts : Counts t s := counts_run (counts_init (min a t)) hfirst hclock hroom (min_le_right a t) hlast
  have hswept := hcounts.sweep le_rfl
  have hlog := (sweep_swept s t).log
  have htimes : ∀ k, startTimes k s.log = startedTimes k told ∧ unknownTimes k s.log = wrongTimes k told := times_run hash init steps
  have hfind : ∀ code w, (s.find hash code w t).2 = .error .tooMany ↔
      ∃ k ∈ w.keys, ENTRY_LIMIT ≤ (Window.recent ENTRY_WINDOW_MS t (wrongTimes k told)).length := by
    intro code w
    rw [find_tooMany_iff, hcounts.limited_iff w le_rfl]
    simp only [(htimes _).2]
  refine ⟨Runs.meets_of_at fun pre c _ _ => tells_step hash _ c, fun ps hps hwait => hcounts.length_le le_rfl hps hwait,
    fun hdrawn p => ?_, htimes, fun k => ?_, fun k => ?_, fun code w => ⟨?_, fun approve onApprove => ?_⟩,
    fun code w p hfound => unknownTimes_of_found hfound, fun k t' ht' => ⟨?_, ?_⟩⟩
  · have hkept : Kept hash t s := kept_of_init hclock hdrawn hlast
    constructor
    · rintro ⟨⟨h, huser⟩, r, hr, -, hexp⟩
      exact ⟨r, hr, (hkept.indexed.user h p huser).1, hexp⟩
    · rintro ⟨r, hr, hno, hexp⟩
      obtain ⟨-, -, -, -, -, -, -, hstatus, -⟩ := (hkept.told.tale hr).waits hno
      exact ⟨⟨_, (hkept.indexed.live p r hr hexp).2 hno⟩, r, hr, hstatus, hexp⟩
  · rw [← (htimes k).1]
    exact hcounts.started k
  · rw [← (htimes k).2]
    exact hcounts.answered k
  · exact refused_iff.1.trans (hfind code w)
  · exact (refused_iff.2 approve onApprove).trans (hfind code w)
  · exact (hswept.starts k t' ht').trans ((congrArg (Window.recent _ t') (congrArg (startTimes k) hlog)).trans
      (hcounts.starts k t' ht').symm)
  · exact (hswept.entries k t' ht').trans ((congrArg (Window.recent _ t') (congrArg (unknownTimes k) hlog)).trans
      (hcounts.entries k t' ht').symm)

/-- Ten wrong codes: the eleventh is refused, and ten minutes after the last one no more. -/
private def guesses : List (LinkStep ℕ) :=
  List.replicate 10 ⟨0, .lookup (js "wrong") ⟨js "10.0.0.2", js "admin"⟩⟩

theorem guesses_refused :
    let s := Runs.run (step id) init guesses
    wrongTimes (js "account:admin") (answers id init guesses) = List.replicate 10 0 ∧
      (s.lookup id (js "wrong") ⟨js "10.0.0.2", js "admin"⟩ 599999).2 = .error .tooMany ∧
      (s.decide id (js "wrong") true ⟨js "10.0.0.2", js "admin"⟩ (fun _ => some 7) 599999).2 = .refused .tooMany ∧
      ¬ (s.lookup id (js "wrong") ⟨js "10.0.0.2", js "admin"⟩ 600000).2 = .error .tooMany := by
  intro s
  have htimes : wrongTimes (js "account:admin") (answers id init guesses) = List.replicate 10 0 := by decide +kernel
  have hroom : Runs.Meets (step id) (fun s c => (s.step id c).roomy = true) init guesses := by decide +kernel
  have hlate : ∀ k ∈ (Who.mk (js "10.0.0.2") (js "admin")).keys,
      (Window.recent ENTRY_WINDOW_MS 600000 (wrongTimes k (answers id init guesses))).length < ENTRY_LIMIT := by
    decide +kernel
  obtain ⟨-, -, -, -, -, -, hearly, -⟩ := @link_limits ℕ id guesses (by decide) hroom 599999 (by decide)
  obtain ⟨-, -, -, -, -, -, hlater, -⟩ := @link_limits ℕ id guesses (by decide) hroom 600000 (by decide)
  have hfull : ∃ k ∈ (Who.mk (js "10.0.0.2") (js "admin")).keys,
      ENTRY_LIMIT ≤ (Window.recent ENTRY_WINDOW_MS 599999 (wrongTimes k (answers id init guesses))).length := by
    refine ⟨js "account:admin", by decide, ?_⟩
    rw [htimes]
    decide +kernel
  refine ⟨htimes, (hearly _ _).1.2 hfull, ((hearly _ _).2 _ _).2 hfull, fun he => ?_⟩
  obtain ⟨k, hk, hle⟩ := (hlater _ _).1.1 he
  exact absurd hle (not_le.2 (hlate k hk))

end Links

end Servitals
