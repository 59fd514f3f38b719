import Servitals.Confd
import Servitals.Lib.Runs

/-!
# The hub's copy of conf.d

`createConfd` of `hub/lib/confd.js`: the directory is looked at again when the last look is two seconds old, and its files
are read again when the look differs from the last one in a name, a time of change, a size or an error.  Each bad file is
logged once.

A request is answered from the directory as it was at a look of the last two seconds, or as it was at a look that was not
told apart from that one (`copy_recent`).  A file that can be read again, with its time and size as they were, is not told
apart.
-/

namespace Servitals

namespace Confd

def CHECK_EVERY_MS : ℤ := 2000

/-- What a look finds: the directory, and the text of the time of change of a name. -/
structure Look where
  dir : Dir
  mtime : JsString → JsString

/-- The text that looks are told apart by. -/
def Look.signature (l : Look) : JsString :=
  (js "|").intercalate ((jsonFiles l.dir).map fun f => match f.2 with
    | .ok st => f.1 ++ js ":" ++ l.mtime f.1 ++ js ":" ++ js (toString st.size)
    | .error e => f.1 ++ js ":" ++ e)

/-- The copy.  `looks` and `warnings` are history variables: the times of the looks, and the files that were logged with
their errors. -/
structure ConfdCopy where
  current : Option Conf
  lastCheck : ℤ
  signature : JsString
  logged : List JsString
  looks : List ℤ
  warnings : List (JsString × JsString)

namespace ConfdCopy

/-- The copy of a new process; no time of a last look is read before there is one. -/
def start : ConfdCopy := ⟨none, 0, [], [], [], []⟩

/-- `key`: what a bad file is logged under. -/
def key (f : JsString × JsString) : JsString := f.1 ++ js ":" ++ f.2

/-- A file that was read is logged when it is bad and was not before. -/
def warn (c : ConfdCopy) (f : JsString × Option JsString) : ConfdCopy :=
  match f.2 with
  | none => c
  | some e =>
    if c.logged.contains (key (f.1, e)) then c
    else { c with logged := c.logged ++ [key (f.1, e)], warnings := c.warnings ++ [(f.1, e)] }

section

variable (text : Json → Except JsString JsString)

/-- The files are read. -/
def reread (c : ConfdCopy) (l : Look) : ConfdCopy × Conf :=
  let conf := readConfd text l.dir
  (conf.files.foldl warn { c with signature := l.signature, current := some conf }, conf)

/-- `get`, at a time, with the directory as it is then. -/
def get (c : ConfdCopy) (t : ℤ) (l : Look) : ConfdCopy × Conf :=
  match c.current with
  | some conf =>
    if t - c.lastCheck < CHECK_EVERY_MS then (c, conf)
    else
      let c := { c with lastCheck := t, looks := c.looks ++ [t] }
      if l.signature = c.signature then (c, conf) else c.reread text l
  | none => { c with lastCheck := t, looks := c.looks ++ [t] }.reread text l

def step (c : ConfdCopy) (x : ℤ × Look) : ConfdCopy := (c.get text x.1 x.2).1

end

/-! ### The log -/

/-- What is logged is logged once, and what was logged before stays logged. -/
structure Logs (before after : ConfdCopy) : Prop where
  current : after.current = before.current
  lastCheck : after.lastCheck = before.lastCheck
  signature : after.signature = before.signature
  looks : after.looks = before.looks
  kept : ∀ k ∈ before.logged, k ∈ after.logged

private theorem logs_warn (c : ConfdCopy) (f : JsString × Option JsString) : Logs c (c.warn f) := by
  unfold warn
  split
  · exact ⟨rfl, rfl, rfl, rfl, fun k hk => hk⟩
  · split
    · exact ⟨rfl, rfl, rfl, rfl, fun k hk => hk⟩
    · exact ⟨rfl, rfl, rfl, rfl, fun k hk => List.mem_append_left _ hk⟩

private theorem logs_foldl (fs : List (JsString × Option JsString)) (c : ConfdCopy) : Logs c (fs.foldl warn c) := by
  induction fs generalizing c with
  | nil => exact ⟨rfl, rfl, rfl, rfl, fun k hk => hk⟩
  | cons f fs ih =>
    have hone := logs_warn c f
    have hrest := ih (c.warn f)
    exact ⟨hrest.current.trans hone.current, hrest.lastCheck.trans hone.lastCheck, hrest.signature.trans hone.signature,
      hrest.looks.trans hone.looks, fun k hk => hrest.kept k (hone.kept k hk)⟩

/-- The log and its set agree, and each warning is about a file of some reading. -/
structure Logged (files : JsString × JsString → Prop) (c : ConfdCopy) : Prop where
  keys : c.logged = c.warnings.map key
  once : c.logged.Nodup
  about : ∀ w ∈ c.warnings, files w

theorem Logged.warn {files : JsString × JsString → Prop} {c : ConfdCopy} (hc : Logged files c)
    {f : JsString × Option JsString} (hf : ∀ e, f.2 = some e → files (f.1, e)) :
    Logged files (c.warn f) ∧ ∀ e, f.2 = some e → key (f.1, e) ∈ (c.warn f).logged := by
  obtain ⟨name, error⟩ := f
  cases error with
  | none => exact ⟨hc, fun e he => by cases he⟩
  | some e =>
    unfold ConfdCopy.warn
    dsimp only
    by_cases hin : c.logged.contains (key (name, e)) = true
    · rw [if_pos hin]
      refine ⟨hc, fun e' he' => ?_⟩
      obtain rfl := Option.some.inj he'
      exact List.contains_iff_mem.1 hin
    · rw [if_neg hin]
      have hnew : key (name, e) ∉ c.logged := fun h => hin (List.contains_iff_mem.2 h)
      refine ⟨⟨?_, ?_, ?_⟩, fun e' he' => ?_⟩
      · rw [hc.keys, List.map_append]
        rfl
      · refine List.nodup_append.2 ⟨hc.once, List.nodup_singleton _, fun k hk k' hk' heq => ?_⟩
        rw [List.mem_singleton.1 hk'] at heq
        exact hnew (heq ▸ hk)
      · intro w hw
        rcases List.mem_append.1 hw with hw | hw
        · exact hc.about w hw
        · rw [List.mem_singleton.1 hw]
          exact hf e rfl
      · obtain rfl := Option.some.inj he'
        exact List.mem_append_right _ List.mem_cons_self

/-- After a reading, every bad file of it is logged. -/
theorem Logged.foldl {files : JsString × JsString → Prop} (fs : List (JsString × Option JsString)) {c : ConfdCopy}
    (hc : Logged files c) (hfs : ∀ f ∈ fs, ∀ e, f.2 = some e → files (f.1, e)) :
    Logged files (fs.foldl ConfdCopy.warn c) ∧
      ∀ f ∈ fs, ∀ e, f.2 = some e → key (f.1, e) ∈ (fs.foldl ConfdCopy.warn c).logged := by
  induction fs generalizing c with
  | nil => exact ⟨hc, fun f hf => absurd hf List.not_mem_nil⟩
  | cons f fs ih =>
    obtain ⟨hone, hkey⟩ := hc.warn (hfs f List.mem_cons_self)
    obtain ⟨hrest, hkeys⟩ := ih hone fun g hg => hfs g (List.mem_cons_of_mem f hg)
    refine ⟨hrest, fun g hg e he => ?_⟩
    rcases List.mem_cons.1 hg with rfl | hg
    · exact (logs_foldl fs _).kept _ (hkey e he)
    · exact hkeys g hg e he

/-! ### The looks -/

variable (text : Json → Except JsString JsString)

/-- A bad file of a reading. -/
def BadIn (calls : List (ℤ × Look)) (w : JsString × JsString) : Prop :=
  ∃ x ∈ calls, (w.1, some w.2) ∈ (readConfd text x.2.dir).files

/-- What the copy says of the calls so far. -/
structure Copies (calls : List (ℤ × Look)) (c : ConfdCopy) : Prop where
  /-- the last look, and the reading it was not told apart from -/
  current : ∀ conf, c.current = some conf → ∃ j ∈ calls, j.1 = c.lastCheck ∧ j.2.signature = c.signature ∧
    ∃ k ∈ calls, k.2.signature = c.signature ∧ conf = readConfd text k.2.dir
  unread : c.current = none → c.looks = []
  apart : c.looks.Pairwise fun a b => a + CHECK_EVERY_MS ≤ b
  last : ∀ a ∈ c.looks, a ≤ c.lastCheck
  logged : Logged (BadIn text calls) c
  complete : ∀ conf, c.current = some conf → ∀ f ∈ conf.files, ∀ e, f.2 = some e → key (f.1, e) ∈ c.logged

variable {text}

theorem BadIn.mono {calls : List (ℤ × Look)} {w : JsString × JsString} (h : BadIn text calls w) (x : ℤ × Look) :
    BadIn text (calls ++ [x]) w := by
  obtain ⟨y, hy, hw⟩ := h
  exact ⟨y, List.mem_append_left _ hy, hw⟩

theorem Copies.start : Copies text [] ConfdCopy.start where
  current conf h := by cases h
  unread _ := rfl
  apart := List.Pairwise.nil
  last a ha := absurd ha List.not_mem_nil
  logged := ⟨rfl, List.nodup_nil, fun w hw => absurd hw List.not_mem_nil⟩
  complete conf h := by cases h

/-- A look at a time that is two seconds after the last. -/
theorem Copies.look {calls : List (ℤ × Look)} {c : ConfdCopy} (hc : Copies text calls c) {t : ℤ}
    (ht : c.current ≠ none → c.lastCheck + CHECK_EVERY_MS ≤ t) :
    (c.looks ++ [t]).Pairwise (fun a b => a + CHECK_EVERY_MS ≤ b) ∧ ∀ a ∈ c.looks ++ [t], a ≤ t := by
  have hbefore : ∀ a ∈ c.looks, a + CHECK_EVERY_MS ≤ t := by
    intro a ha
    have hsome : c.current ≠ none := by
      intro h
      rw [hc.unread h] at ha
      exact List.not_mem_nil ha
    have := hc.last a ha
    have := ht hsome
    omega
  constructor
  · refine List.pairwise_append.2 ⟨hc.apart, List.pairwise_singleton _ _, fun a ha b hb => ?_⟩
    rw [List.mem_singleton.1 hb]
    exact hbefore a ha
  · intro a ha
    rcases List.mem_append.1 ha with ha | ha
    · have := hbefore a ha
      unfold CHECK_EVERY_MS at this
      omega
    · exact (List.mem_singleton.1 ha).le

/-- The files are read again. -/
private theorem Copies.reread {calls : List (ℤ × Look)} {c : ConfdCopy} (hc : Copies text calls c) (t : ℤ) (l : Look)
    (ht : c.current ≠ none → c.lastCheck + CHECK_EVERY_MS ≤ t) :
    Copies text (calls ++ [(t, l)]) ({ c with lastCheck := t, looks := c.looks ++ [t] }.reread text l).1 := by
  unfold ConfdCopy.reread
  dsimp only
  generalize hconf : readConfd text l.dir = conf
  set c' : ConfdCopy := { c with lastCheck := t, looks := c.looks ++ [t], signature := l.signature, current := some conf }
  have hlogs := logs_foldl conf.files c'
  have hmem : (t, l) ∈ calls ++ [(t, l)] := List.mem_append_right _ List.mem_cons_self
  obtain ⟨hapart, hlast⟩ := hc.look ht
  have hold : Logged (BadIn text (calls ++ [(t, l)])) c' :=
    ⟨hc.logged.keys, hc.logged.once, fun w hw => (hc.logged.about w hw).mono _⟩
  obtain ⟨hlogged, hcomplete⟩ := hold.foldl conf.files fun f hf e he => by
    refine ⟨(t, l), hmem, ?_⟩
    rw [hconf, ← he]
    exact hf
  refine ⟨fun conf' h => ?_, fun h => ?_, ?_, ?_, hlogged, fun conf' h => ?_⟩
  · rw [hlogs.current] at h
    obtain rfl := Option.some.inj h
    refine ⟨(t, l), hmem, hlogs.lastCheck.symm, hlogs.signature.symm, (t, l), hmem, hlogs.signature.symm, hconf.symm⟩
  · rw [hlogs.current] at h
    cases h
  · rw [hlogs.looks]
    exact hapart
  · rw [hlogs.looks, hlogs.lastCheck]
    exact hlast
  · rw [hlogs.current] at h
    obtain rfl := Option.some.inj h
    exact hcomplete

/-- A call: what it answers is the copy's, read at a look that is told apart from none of the last two seconds. -/
theorem Copies.get {calls : List (ℤ × Look)} {c : ConfdCopy} (hc : Copies text calls c) (t : ℤ) (l : Look) :
    Copies text (calls ++ [(t, l)]) (c.get text t l).1 ∧ (c.get text t l).1.current = some (c.get text t l).2 ∧
      t - (c.get text t l).1.lastCheck < CHECK_EVERY_MS := by
  have hnow : t - t < CHECK_EVERY_MS := by
    unfold CHECK_EVERY_MS
    omega
  have hread : ∀ c' : ConfdCopy, (c'.reread text l).1.current = some (c'.reread text l).2 ∧
      (c'.reread text l).1.lastCheck = c'.lastCheck := by
    intro c'
    have hlogs := logs_foldl (readConfd text l.dir).files
      { c' with signature := l.signature, current := some (readConfd text l.dir) }
    exact ⟨hlogs.current, hlogs.lastCheck⟩
  unfold ConfdCopy.get
  split
  · rename_i conf hcur
    obtain ⟨j, hj, hjtime, hjsig, k, hk, hksig, hconf⟩ := hc.current conf hcur
    by_cases hrecent : t - c.lastCheck < CHECK_EVERY_MS
    · -- the copy as it is
      rw [if_pos hrecent]
      refine ⟨⟨fun conf' h => ?_, hc.unread, hc.apart, hc.last,
        ⟨hc.logged.keys, hc.logged.once, fun w hw => (hc.logged.about w hw).mono _⟩, hc.complete⟩, hcur, hrecent⟩
      obtain ⟨j', hj', hjtime', hjsig', k', hk', hconf'⟩ := hc.current conf' h
      exact ⟨j', List.mem_append_left _ hj', hjtime', hjsig', k', List.mem_append_left _ hk', hconf'⟩
    · rw [if_neg hrecent]
      have hdue : c.current ≠ none → c.lastCheck + CHECK_EVERY_MS ≤ t := fun _ => by omega
      by_cases hsame : l.signature = c.signature
      · -- a look that is not told apart
        rw [if_pos hsame]
        obtain ⟨hapart, hlast⟩ := hc.look hdue
        refine ⟨⟨fun conf' h => ?_, fun h => ?_, hapart, hlast,
          ⟨hc.logged.keys, hc.logged.once, fun w hw => (hc.logged.about w hw).mono _⟩, hc.complete⟩, hcur, hnow⟩
        · obtain ⟨-, -, -, -, k', hk', hksig', hconf'⟩ := hc.current conf' h
          exact ⟨(t, l), List.mem_append_right _ List.mem_cons_self, rfl, hsame, k', List.mem_append_left _ hk', hksig',
            hconf'⟩
        · rw [hcur] at h
          cases h
      · rw [if_neg hsame]
        obtain ⟨hcurrent, hcheck⟩ := hread { c with lastCheck := t, looks := c.looks ++ [t] }
        refine ⟨hc.reread t l hdue, hcurrent, ?_⟩
        rw [hcheck]
        exact hnow
  · rename_i hcur
    obtain ⟨hcurrent, hcheck⟩ := hread { c with lastCheck := t, looks := c.looks ++ [t] }
    refine ⟨hc.reread t l fun h => absurd hcur h, hcurrent, ?_⟩
    rw [hcheck]
    exact hnow

variable (text) in
private theorem copies_run (calls : List (ℤ × Look)) :
    Copies text calls (Runs.run (step text) ConfdCopy.start calls) := by
  induction calls using List.reverseRecOn with
  | nil => exact .start
  | append_singleton calls x ih =>
    rw [Runs.run_snoc]
    exact (ih.get x.1 x.2).1

/-- **A recent copy.**  In every run of calls, at whatever times of the clock and however the directory changes: a call
answers with the files as they were read at some call of the run, whose look was not told apart from the look of a call
that is less than two seconds old; where looks that are not told apart read the same, it answers with the files as they
were at a call less than two seconds old.  The directory is looked at every two seconds at most, every bad file of an
answer is logged by then, no two warnings are about one key, and each is about a bad file of the run. -/
theorem copy_recent (text : Json → Except JsString JsString) (calls : List (ℤ × Look)) (t : ℤ) (l : Look) :
    let c := Runs.run (step text) ConfdCopy.start calls
    let run := calls ++ [(t, l)]
    (∃ j ∈ run, t - j.1 < 2000 ∧
        (∃ k ∈ run, k.2.signature = j.2.signature ∧ (c.get text t l).2 = readConfd text k.2.dir) ∧
        ((∀ k ∈ run, k.2.signature = j.2.signature → readConfd text k.2.dir = readConfd text j.2.dir) →
          (c.get text t l).2 = readConfd text j.2.dir)) ∧
      (c.get text t l).1.looks.Pairwise (fun a b => a + 2000 ≤ b) ∧
      (∀ name e, (name, some e) ∈ (c.get text t l).2.files → key (name, e) ∈ (c.get text t l).1.warnings.map key) ∧
      ((c.get text t l).1.warnings.map key).Nodup ∧
      ∀ w ∈ (c.get text t l).1.warnings, ∃ x ∈ run, (w.1, some w.2) ∈ (readConfd text x.2.dir).files := by
  intro c run
  obtain ⟨hcopies, hcurrent, hcheck⟩ := (copies_run text calls).get t l
  obtain ⟨j, hj, hjtime, hjsig, k, hk, hksig, hconf⟩ := hcopies.current _ hcurrent
  refine ⟨⟨j, hj, ?_, ⟨k, hk, hksig.trans hjsig.symm, hconf⟩, fun hsame => ?_⟩, hcopies.apart, ?_, ?_, hcopies.logged.about⟩
  · rw [hjtime]
    exact hcheck
  · exact hconf.trans (hsame k hk (hksig.trans hjsig.symm))
  · intro name e hfile
    rw [← hcopies.logged.keys]
    exact hcopies.complete _ hcurrent _ hfile e rfl
  · rw [← hcopies.logged.keys]
    exact hcopies.logged.once

end ConfdCopy

end Confd

end Servitals
