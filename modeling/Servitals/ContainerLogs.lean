import Servitals.Lib.Scan
import Servitals.JsNumber
import Servitals.Utf8

/-!
# Logs of containers

`demuxLogs` and `stripAnsi` of `hub/server.js`.  The log of a container comes in frames, a header of eight bytes before
each, or raw when the container has a terminal; the code guesses which by the first four bytes, decodes each frame on its
own and takes the escape sequences out of the text.
-/

namespace Servitals

/-! ### Escape sequences -/

def isEsc (u : UInt16) : Bool := u == 0x1b

/-- `[0-9;?]` -/
def isParameter (u : UInt16) : Bool := isDigit u || u == 0x3b || u == 0x3f

/-- `[ -\/]` -/
def isIntermediate (u : UInt16) : Bool := unitIn ' ' '/' u

/-- `[@-~]` -/
def isFinalUnit (u : UInt16) : Bool := unitIn '@' '~' u

/-- `[^\x07\x1b]` -/
def isTitle (u : UInt16) : Bool := u != 0x07 && u != 0x1b

section

/-! The sequences are patterns of anything that is seen as code units. -/

variable {α : Type*} (view : α → UInt16)

/-- `\x1b\[[0-9;?]*[ -\/]*[@-~]` -/
def csi : Pattern α :=
  Scan.first (fun a => isEsc (view a))
    (fun l => (Scan.one (fun a => view a == 0x5b) l).bind fun r =>
      Scan.one (fun a => isFinalUnit (view a))
        ((r.dropWhile fun a => isParameter (view a)).dropWhile fun a => isIntermediate (view a)))
    (by
      intro l r h
      obtain ⟨t, ht, hfinal⟩ := Option.bind_eq_some_iff.1 h
      exact (Scan.one_suffix hfinal).trans
        ((List.dropWhile_suffix _).trans ((List.dropWhile_suffix _).trans (Scan.one_suffix ht))))

/-- `\x1b\][^\x07\x1b]*(?:\x07|\x1b\\)` -/
def osc : Pattern α :=
  Scan.first (fun a => isEsc (view a))
    (fun l => (Scan.one (fun a => view a == 0x5d) l).bind fun r =>
      let rest := r.dropWhile fun a => isTitle (view a)
      (Scan.one (fun a => view a == 0x07) rest).or
        ((Scan.one (fun a => isEsc (view a)) rest).bind fun t => Scan.one (fun a => view a == 0x5c) t))
    (by
      intro l r h
      obtain ⟨t, ht, hend⟩ := Option.bind_eq_some_iff.1 h
      have hrest := (List.dropWhile_suffix fun a => isTitle (view a)).trans (Scan.one_suffix ht)
      rcases Option.or_eq_some_iff.1 hend with hbell | ⟨-, hst⟩
      · exact (Scan.one_suffix hbell).trans hrest
      · obtain ⟨u, hu, hslash⟩ := Option.bind_eq_some_iff.1 hst
        exact (Scan.one_suffix hslash).trans ((Scan.one_suffix hu).trans hrest))

/-- `\x1b[=>]` -/
def keypad : Pattern α :=
  Scan.first (fun a => isEsc (view a)) (Scan.one fun a => view a == 0x3d || view a == 0x3e) Scan.one_suffix

def stripBy (l : List α) : List α := (keypad view).remove ((osc view).remove ((csi view).remove l))

/-- Nothing in it is an escape sequence. -/
def NoEscapes (l : List α) : Prop := (csi view).NoMatch l ∧ (osc view).NoMatch l ∧ (keypad view).NoMatch l

/-- What has no escape sequence in it is left as it is, and only that. -/
private theorem stripBy_eq_self_iff (l : List α) : stripBy view l = l ↔ NoEscapes view l := by
  constructor
  · intro h
    have hcsi := (csi view).remove_sublist l
    have hosc := (osc view).remove_sublist ((csi view).remove l)
    have hkeypad := (keypad view).remove_sublist ((osc view).remove ((csi view).remove l))
    have hlen := congrArg List.length h
    rw [stripBy] at hlen
    have hself := hcsi.eq_of_length_le (by rw [← hlen]; exact hkeypad.length_le.trans hosc.length_le)
    rw [hself] at hosc hkeypad hlen
    have hself' := hosc.eq_of_length_le (by rw [← hlen]; exact hkeypad.length_le)
    rw [stripBy, hself, hself'] at h
    exact ⟨((csi view).remove_eq_self_iff l).1 hself, ((osc view).remove_eq_self_iff l).1 hself',
      ((keypad view).remove_eq_self_iff l).1 h⟩
  · rintro ⟨h1, h2, h3⟩
    rw [stripBy, ((csi view).remove_eq_self_iff l).2 h1, ((osc view).remove_eq_self_iff l).2 h2,
      ((keypad view).remove_eq_self_iff l).2 h3]

end

/-- `stripAnsi` -/
def stripAnsi (s : JsString) : JsString := stripBy id s

example : stripAnsi (js "a\x1b[1;31mb\x1b]0;title\x07c\x1b=d\x1b[é") = js "abcd\x1b[é" := by decide +kernel

/-! ### Glyphs in place of code units -/

section

variable {α : Type*} {view : α → UInt16} {f : α → JsString}

/-- Each element is a code unit, or a text without ASCII that is seen as a code unit which is none either. -/
def Shows (view : α → UInt16) (f : α → JsString) : Prop :=
  ∀ a, f a = [view a] ∨ 0x80 ≤ (view a).toNat ∧ f a ≠ [] ∧ ∀ u ∈ f a, 0x80 ≤ u.toNat

theorem Shows.one (h : Shows view f) {c : UInt16 → Bool} (hc : ∀ u, 0x80 ≤ u.toNat → c u = false) (l : List α) :
    Scan.one c (l.flatMap f) = (Scan.one (fun a => c (view a)) l).map fun r => r.flatMap f := by
  refine Scan.one_flatMap (fun a ha => ?_) (fun a ha => ?_) l
  · rcases h a with hunit | ⟨hview, -⟩
    · exact ⟨view a, hunit, ha⟩
    · rw [hc _ hview] at ha
      cases ha
  · rcases h a with hunit | ⟨-, hne, hall⟩
    · rw [hunit]
      exact ⟨List.cons_ne_nil _ _, fun u hu => List.mem_singleton.1 hu ▸ ha⟩
    · exact ⟨hne, fun u hu => hc u (hall u hu)⟩

theorem Shows.dropWhile (h : Shows view f) {c : UInt16 → Bool} {b : Bool} (hc : ∀ u, 0x80 ≤ u.toNat → c u = b)
    (l : List α) : (l.flatMap f).dropWhile c = (l.dropWhile fun a => c (view a)).flatMap f := by
  refine Scan.dropWhile_flatMap (fun a => ?_) l
  rcases h a with hunit | ⟨hview, hne, hall⟩
  · rw [hunit]
    exact ⟨List.cons_ne_nil _ _, fun u hu => by rw [List.mem_singleton.1 hu]⟩
  · exact ⟨hne, fun u hu => by rw [hc u (hall u hu), hc _ hview]⟩

private theorem beq_ascii {c : UInt16} (hc : c.toNat < 0x80) : ∀ u : UInt16, 0x80 ≤ u.toNat → (u == c) = false := by
  intro u hu
  rw [beq_eq_false_iff_ne]
  rintro rfl
  omega

private theorem unitIn_ascii {a b : Char} (hb : b.toNat < 0x80) : ∀ u :
    UInt16, 0x80 ≤ u.toNat → unitIn a b u = false := by
  intro u hu
  rw [unitIn_eq_false_iff]
  omega

private theorem isEsc_ascii : ∀ u : UInt16, 0x80 ≤ u.toNat → isEsc u = false := beq_ascii (by decide)

private theorem isParameter_ascii : ∀ u : UInt16, 0x80 ≤ u.toNat → isParameter u = false := by
  intro u hu
  rw [isParameter, isDigit, unitIn_ascii (by decide) u hu, beq_ascii (by decide) u hu, beq_ascii (by decide) u hu]
  rfl

private theorem isIntermediate_ascii : ∀ u :
    UInt16, 0x80 ≤ u.toNat → isIntermediate u = false := unitIn_ascii (by decide)

private theorem isTitle_ascii : ∀ u : UInt16, 0x80 ≤ u.toNat → isTitle u = true := by
  intro u hu
  rw [isTitle, bne, bne, beq_ascii (by decide) u hu, beq_ascii (by decide) u hu]
  rfl

/-- A pattern that begins with an escape and goes on alike is taken out alike. -/
theorem Shows.remove (h : Shows view f) {p : Pattern α} {q : Pattern UInt16}
    {next : List α → Option (List α)} {next' : JsString → Option JsString}
    (hp : ∀ l, p.rest l = (Scan.one (fun a => isEsc (view a)) l).bind next)
    (hq : ∀ s, q.rest s = (Scan.one isEsc s).bind next')
    (hnext : ∀ l : List α, next' (l.flatMap f) = (next l).map fun r => r.flatMap f) (l : List α) :
    q.remove (l.flatMap f) = (p.remove l).flatMap f := by
  refine Pattern.remove_flatMap (fun l => ?_) (fun a l b t hb => ?_) (fun a => ?_) l
  · rw [hp, hq, h.one isEsc_ascii]
    cases Scan.one (fun a => isEsc (view a)) l with
    | none => rfl
    | some r => exact hnext r
  · -- only a glyph of several units has a tail
    rcases h a with hunit | ⟨-, -, hall⟩
    · rw [hunit] at hb
      exact absurd (List.suffix_nil.1 hb) (List.cons_ne_nil b t)
    · have hmem : b ∈ f a := List.mem_of_mem_tail (hb.subset List.mem_cons_self)
      rw [hq, List.cons_append, Scan.one, if_neg (by rw [isEsc_ascii b (hall b hmem)]; exact Bool.false_ne_true)]
      rfl
  · rcases h a with hunit | ⟨-, hne, -⟩
    · rw [hunit]
      exact List.cons_ne_nil _ _
    · exact hne

/-- Escape sequences are taken out of a text as they are out of its glyphs. -/
private theorem Shows.strip (h : Shows view f) (l : List α) : stripAnsi (l.flatMap f) = (stripBy view l).flatMap f := by
  have hcsi : ∀ l : List α, (csi id).remove (l.flatMap f) = ((csi view).remove l).flatMap f := by
    refine h.remove (fun _ => rfl) (fun _ => rfl) fun l => ?_
    dsimp only [id]
    rw [h.one (beq_ascii (c := 0x5b) (by decide))]
    cases Scan.one (fun a => view a == 0x5b) l with
    | none => rfl
    | some r =>
      rw [Option.map_some, Option.bind_some, Option.bind_some, h.dropWhile isParameter_ascii,
        h.dropWhile isIntermediate_ascii]
      exact h.one (c := isFinalUnit) (unitIn_ascii (by decide)) _
  have hosc : ∀ l : List α, (osc id).remove (l.flatMap f) = ((osc view).remove l).flatMap f := by
    refine h.remove (fun _ => rfl) (fun _ => rfl) fun l => ?_
    dsimp only [id]
    rw [h.one (beq_ascii (c := 0x5d) (by decide))]
    cases Scan.one (fun a => view a == 0x5d) l with
    | none => rfl
    | some r =>
      rw [Option.map_some, Option.bind_some, Option.bind_some, h.dropWhile isTitle_ascii,
        h.one (beq_ascii (c := 0x07) (by decide)), h.one isEsc_ascii]
      cases Scan.one (fun a => view a == 0x07) (r.dropWhile fun a => isTitle (view a)) with
      | some t => rfl
      | none =>
        cases Scan.one (fun a => isEsc (view a)) (r.dropWhile fun a => isTitle (view a)) with
        | none => rfl
        | some t => exact h.one (beq_ascii (c := 0x5c) (by decide)) t
  have hkeypad : ∀ l : List α, (keypad id).remove (l.flatMap f) = ((keypad view).remove l).flatMap f := by
    refine h.remove (fun _ => rfl) (fun _ => rfl) fun l => ?_
    refine h.one (c := fun u => u == 0x3d || u == 0x3e) (fun u hu => ?_) l
    rw [beq_ascii (by decide) u hu, beq_ascii (by decide) u hu]
    rfl
  rw [stripAnsi, stripBy, stripBy, hcsi, hosc, hkeypad]

end

/-! ### The log -/

/-- A frame of a log: stream 0, 1 or 2 and a payload whose length four bytes can say. -/
structure LogFrame where
  stream : Fin 3
  payload : List UInt8
  fits : payload.length < 2 ^ 32

/-- A frame as it comes. -/
def LogFrame.bytes (f : LogFrame) : List UInt8 :=
  .ofNat f.stream :: 0 :: 0 :: 0 :: .ofNat (f.payload.length / 2 ^ 24) :: .ofNat (f.payload.length / 2 ^ 16) ::
    .ofNat (f.payload.length / 2 ^ 8) :: .ofNat f.payload.length :: f.payload

/-- `buf.readUInt32BE` -/
def readUInt32BE (e f g h : UInt8) : ℕ := ((e.toNat * 256 + f.toNat) * 256 + g.toNat) * 256 + h.toNat

/-- Do the first bytes of a log look like those of a frame? -/
def isFramed : List UInt8 → Bool
  | a :: b :: c :: d :: _ => decide (a ≤ 2) && b == 0 && c == 0 && d == 0
  | _ => false

/-- The loop of `demuxLogs` over what is left of the log, for as many rounds as there is fuel. -/
def demuxLoop : ℕ → List UInt8 → Option (List JsString)
  | 0, _ => none
  | fuel + 1, a :: b :: c :: d :: e :: f :: g :: h :: rest =>
    if !isFramed [a, b, c, d] then some []
    else
      let len := readUInt32BE e f g h
      (demuxLoop fuel (rest.drop len)).map fun out => decodeUtf8 (rest.take len) :: out
  | _ + 1, _ => some []

/-- `demuxLogs` -/
def demuxLogs (fuel : ℕ) (buf : List UInt8) : Option JsString :=
  if buf.length < 8 then some (decodeUtf8 buf)
  else if !isFramed buf then some (stripAnsi (decodeUtf8 buf))
  else (demuxLoop fuel buf).map fun out => stripAnsi out.flatten

private theorem demuxLoop_isSome {fuel : ℕ} {buf : List UInt8} (h : buf.length < fuel) :
    (demuxLoop fuel buf).isSome = true := by
  fun_induction demuxLoop fuel buf with
  | case1 => omega
  | case2 => rfl
  | case3 fuel a b c d e f g h rest hframed len ih =>
    rw [Option.isSome_map]
    refine ih ?_
    simp only [List.length_cons] at h
    rw [List.length_drop]
    omega
  | case4 => rfl

/-- The loop ends on every log. -/
private theorem demuxLogs_isSome {fuel : ℕ} {buf : List UInt8} (h : buf.length < fuel) :
    (demuxLogs fuel buf).isSome = true := by
  unfold demuxLogs
  split
  · rfl
  · split
    · rfl
    · rw [Option.isSome_map]
      exact demuxLoop_isSome h

private theorem readUInt32BE_bytes {n : ℕ} (h : n < 2 ^ 32) :
    readUInt32BE (.ofNat (n / 2 ^ 24)) (.ofNat (n / 2 ^ 16)) (.ofNat (n / 2 ^ 8)) (.ofNat n) = n := by
  simp only [readUInt32BE, UInt8.toNat_ofNat']
  omega

private theorem LogFrame.isFramed_bytes (f : LogFrame) (rest : List UInt8) : isFramed (f.bytes ++ rest) = true := by
  have hstream : ∀ k : Fin 3, decide (UInt8.ofNat k ≤ 2) = true := by decide
  rw [bytes]
  simp only [List.cons_append, isFramed, hstream]
  rfl

/-- The frames of a log are found, and each is decoded on its own. -/
private theorem demuxLoop_frames {fuel : ℕ} (frames : List LogFrame) (h : frames.length < fuel) :
    demuxLoop fuel (frames.flatMap LogFrame.bytes) = some (frames.map fun f => decodeUtf8 f.payload) := by
  induction frames generalizing fuel with
  | nil =>
    cases fuel with
    | zero => cases h
    | succ fuel => rfl
  | cons f frames ih =>
    cases fuel with
    | zero => cases h
    | succ fuel =>
      have hrest := ih (Nat.lt_of_succ_lt_succ h)
      have hframed := f.isFramed_bytes []
      rw [List.flatMap_cons, LogFrame.bytes]
      simp only [List.cons_append, demuxLoop]
      rw [if_neg ?_]
      · rw [readUInt32BE_bytes f.fits, List.drop_left, List.take_left, hrest]
        rfl
      · rw [LogFrame.bytes] at hframed
        simpa [isFramed] using hframed

/-! ### What a reader can be -/

namespace Utf8Reader

/-- Between two characters, or in one whose code point is neither of ASCII nor too large. -/
structure Sane (r : Utf8Reader) : Prop where
  idle : r.needed = 0 → r = between
  few : r.needed ≤ 3
  lower : 0x80 ≤ r.lower
  upper : r.upper ≤ 0xbf
  low : r.needed ≠ 0 → 0x80 ≤ (r.point * 0x40 + (r.lower - 0x80)) * 0x40 ^ (r.needed - 1)
  high : r.needed ≠ 0 → (r.point * 0x40 + (r.upper - 0x80) + 1) * 0x40 ^ (r.needed - 1) ≤ 0x110000

private theorem sane_between : Sane between :=
  ⟨fun _ => rfl, by decide, by decide, by decide, fun h => absurd rfl h, fun h => absurd rfl h⟩

private theorem sane_lead (b : ℕ) : Sane (lead b).1 := by
  unfold lead
  split
  · exact sane_between
  · split
    · refine ⟨fun h => (by cases h), Nat.succ_le_succ (Nat.zero_le 2), le_rfl, le_rfl, fun _ => ?_, fun _ => ?_⟩
      · dsimp only
        omega
      · dsimp only
        omega
    · split
      · refine ⟨fun h => (by cases h), Nat.le_succ 2, ?_, ?_, fun _ => ?_, fun _ => ?_⟩
        · dsimp only
          split <;> omega
        · dsimp only
          split <;> omega
        · dsimp only
          split <;> omega
        · dsimp only
          split <;> omega
      · split
        · refine ⟨fun h => (by cases h), le_rfl, ?_, ?_, fun _ => ?_, fun _ => ?_⟩
          · dsimp only
            split <;> omega
          · dsimp only
            split <;> omega
          · dsimp only
            split <;> omega
          · dsimp only
            split <;> omega
        · exact sane_between

/-- A byte that the character goes on with, and is not its last. -/
theorem Sane.more {r : Utf8Reader} (h : r.Sane) {b : ℕ} (hfit : r.lower ≤ b ∧ b ≤ r.upper) (h0 : r.needed ≠ 0)
    (h1 : r.needed ≠ 1) : Sane ⟨r.needed - 1, r.point * 0x40 + (b - 0x80), 0x80, 0xbf⟩ := by
  have hlow := h.low h0
  have hhigh := h.high h0
  have hlower := h.lower
  obtain ⟨n, hn⟩ : ∃ n, r.needed = n + 2 := ⟨r.needed - 2, by omega⟩
  rw [hn, show n + 2 - 1 = n + 1 by omega, pow_succ] at hlow hhigh
  refine ⟨fun hzero => ?_, ?_, le_rfl, le_rfl, fun _ => ?_, fun _ => ?_⟩
  · dsimp only at hzero
    omega
  · have hfew := h.few
    dsimp only
    omega
  · dsimp only
    rw [hn, show n + 2 - 1 - 1 = n by omega]
    have hle : (r.point * 0x40 + (r.lower - 0x80)) * (0x40 ^ n * 0x40) ≤
        (r.point * 0x40 + (b - 0x80)) * (0x40 ^ n * 0x40) := Nat.mul_le_mul_right _ (by omega)
    calc 0x80 ≤ (r.point * 0x40 + (b - 0x80)) * (0x40 ^ n * 0x40) := hlow.trans hle
      _ = ((r.point * 0x40 + (b - 0x80)) * 0x40 + (0x80 - 0x80)) * 0x40 ^ n := by ring
  · dsimp only
    rw [hn, show n + 2 - 1 - 1 = n by omega]
    have hle : (r.point * 0x40 + (b - 0x80) + 1) * (0x40 ^ n * 0x40) ≤
        (r.point * 0x40 + (r.upper - 0x80) + 1) * (0x40 ^ n * 0x40) := Nat.mul_le_mul_right _ (by omega)
    calc ((r.point * 0x40 + (b - 0x80)) * 0x40 + (0xbf - 0x80) + 1) * 0x40 ^ n
        = (r.point * 0x40 + (b - 0x80) + 1) * (0x40 ^ n * 0x40) := by ring
      _ ≤ 0x110000 := hle.trans hhigh

theorem Sane.feed {r : Utf8Reader} (h : r.Sane) (b : ℕ) : Sane (r.feed b).1 := by
  unfold Utf8Reader.feed
  split
  · exact sane_lead b
  · rename_i h0
    split
    · rename_i hfit
      dsimp only
      split
      · exact sane_between
      · rename_i h1
        exact h.more hfit h0 h1
    · exact sane_lead b

/-- A code point that is completed. -/
theorem Sane.point {r : Utf8Reader} (h : r.Sane) {b : ℕ} (hfit : r.lower ≤ b ∧ b ≤ r.upper) (h1 : r.needed = 1) :
    0x80 ≤ r.point * 0x40 + (b - 0x80) ∧ r.point * 0x40 + (b - 0x80) < 0x110000 := by
  have hlow := h.low (by omega)
  have hhigh := h.high (by omega)
  have hlower := h.lower
  rw [h1, Nat.sub_self, pow_zero, mul_one] at hlow hhigh
  omega

/-- A byte inside of a character begins none. -/
private theorem lead_inside {b : ℕ} (h : 0x80 ≤ b ∧ b ≤ 0xbf) : lead b = (between, [0xfffd]) := by
  rw [lead, if_neg (by omega), if_neg (by omega), if_neg (by omega), if_neg (by omega)]

end Utf8Reader

/-! ### Where frames meet -/

/-- A code unit of a log's text, or a character for which the code shows `n + 2` replacement characters, because frames
meet inside of it. -/
inductive Glyph
  | unit (u : UInt16)
  | broken (c n : ℕ) (lo : 0x80 ≤ c) (hi : c < 0x110000)

namespace Glyph

/-- As the code shows it. -/
def here : Glyph → JsString
  | unit u => [u]
  | broken _ n _ _ => List.replicate (n + 2) 0xfffd

/-- As one reader of all payloads shows it. -/
def whole : Glyph → JsString
  | unit u => [u]
  | broken c _ _ _ => codeUnits c

/-- What escape sequences see of it. -/
def view : Glyph → UInt16
  | unit u => u
  | broken _ _ _ _ => 0xfffd

private theorem view_broken {c n : ℕ} {lo : 0x80 ≤ c} {hi : c < 0x110000} : 0x80 ≤ (view (broken c n lo hi)).toNat := by
  show 0x80 ≤ (0xfffd : UInt16).toNat
  decide

def isBroken : Glyph → Bool
  | unit _ => false
  | broken _ _ _ _ => true

def ofPoint (c : ℕ) : List Glyph := (codeUnits c).map unit

/-- A character for which `k` replacement characters are shown. -/
def shown (c k : ℕ) : List Glyph :=
  if h : 2 ≤ k ∧ 0x80 ≤ c ∧ c < 0x110000 then [broken c (k - 2) h.2.1 h.2.2] else ofPoint c

end Glyph

/-- A reader of all payloads, and how many replacement characters the code, which begins anew with each, has shown for the
character that the reader is in. -/
structure Seam where
  reader : Utf8Reader
  shown : ℕ

namespace Seam

def feed (m : Seam) (b : ℕ) : Seam × List Glyph :=
  if m.shown = 0 then (⟨(m.reader.feed b).1, 0⟩, (m.reader.feed b).2.flatMap Glyph.ofPoint)
  else if m.reader.lower ≤ b ∧ b ≤ m.reader.upper then
    if m.reader.needed = 1 then (⟨.between, 0⟩, Glyph.shown (m.reader.point * 0x40 + (b - 0x80)) (m.shown + 1))
    else (⟨(m.reader.feed b).1, m.shown + 1⟩, [])
  else (⟨(Utf8Reader.lead b).1, 0⟩, Glyph.shown 0xfffd m.shown ++ (Utf8Reader.lead b).2.flatMap Glyph.ofPoint)

/-- The bytes of a payload. -/
def payload (m : Seam) : List UInt8 → Seam × List Glyph
  | [] => (m, [])
  | b :: bs => ((payload (m.feed b.toNat).1 bs).1, (m.feed b.toNat).2 ++ (payload (m.feed b.toNat).1 bs).2)

/-- The end of a payload: a character that breaks off is shown as one replacement character. -/
def border (m : Seam) : Seam := if m.reader.needed ≠ 0 ∧ m.shown = 0 then { m with shown := 1 } else m

/-- The glyphs of the rest of a log. -/
def glyphs (m : Seam) : List (List UInt8) → List Glyph
  | [] => if m.reader.needed = 0 then [] else Glyph.shown 0xfffd m.shown
  | p :: ps => (m.payload p).2 ++ glyphs (m.payload p).1.border ps

end Seam

/-- The glyphs of a log of some payloads. -/
def glyphsOf (payloads : List (List UInt8)) : List Glyph := Seam.glyphs ⟨.between, 0⟩ payloads

example : (glyphsOf [[0x61, 0xe2], [], [0x82], [0xac, 0x62]]).map Glyph.here = [js "a", js "\ufffd\ufffd\ufffd", js "b"] ∧
    (glyphsOf [[0x61, 0xe2], [], [0x82], [0xac, 0x62]]).map Glyph.whole = [js "a", js "€", js "b"] := by decide +kernel

/-! ### Both texts are made of the glyphs -/

namespace Glyph

private theorem here_ofPoint (c : ℕ) : (ofPoint c).flatMap here = codeUnits c := by
  rw [ofPoint, List.flatMap_map]
  exact List.flatMap_singleton' _

private theorem whole_ofPoint (c : ℕ) : (ofPoint c).flatMap whole = codeUnits c := by
  rw [ofPoint, List.flatMap_map]
  exact List.flatMap_singleton' _

private theorem here_ofPoints (cs : List ℕ) : (cs.flatMap ofPoint).flatMap here = cs.flatMap codeUnits := by
  rw [List.flatMap_assoc]
  exact List.flatMap_congr fun c _ => here_ofPoint c

private theorem whole_ofPoints (cs : List ℕ) : (cs.flatMap ofPoint).flatMap whole = cs.flatMap codeUnits := by
  rw [List.flatMap_assoc]
  exact List.flatMap_congr fun c _ => whole_ofPoint c

private theorem codeUnits_replacement : codeUnits 0xfffd = [0xfffd] := by
  rw [codeUnits_small (by omega)]
  rfl

/-- A character of which more than one replacement character is shown. -/
private theorem shown_of_two {c k : ℕ} (hk : 2 ≤ k) (hc : 0x80 ≤ c ∧ c < 0x110000) :
    (shown c k).flatMap here = List.replicate k 0xfffd ∧ (shown c k).flatMap whole = codeUnits c := by
  rw [shown, dif_pos ⟨hk, hc⟩, List.flatMap_singleton, List.flatMap_singleton, here, whole, show k - 2 + 2 = k by omega]
  exact ⟨rfl, rfl⟩

/-- A character that broke off. -/
private theorem shown_replacement {k : ℕ} (hk : k ≠ 0) :
    (shown 0xfffd k).flatMap here = List.replicate k 0xfffd ∧ (shown 0xfffd k).flatMap whole = [0xfffd] := by
  by_cases h : 2 ≤ k
  · have htwo := shown_of_two (c := 0xfffd) h (by omega)
    rw [codeUnits_replacement] at htwo
    exact htwo
  · have hone : k = 1 := by omega
    rw [hone, shown, dif_neg (by omega), here_ofPoint, whole_ofPoint, codeUnits_replacement]
    exact ⟨rfl, rfl⟩

end Glyph

namespace Seam

/-- The reader that the code has at this place. -/
def own (m : Seam) : Utf8Reader := if m.shown = 0 then m.reader else .between

structure Good (m : Seam) : Prop where
  sane : m.reader.Sane
  inside : m.shown ≠ 0 → m.reader.needed ≠ 0

/-- What a byte does: to the reader of all payloads, and to the code's. -/
private theorem feed_spec {m : Seam} (h : m.Good) (b : ℕ) :
    (m.feed b).1.Good ∧ (m.feed b).1.reader = (m.reader.feed b).1 ∧ (m.feed b).1.own = (m.own.feed b).1 ∧
      (m.feed b).2.flatMap Glyph.whole = (m.reader.feed b).2.flatMap codeUnits ∧
      (m.feed b).2.flatMap Glyph.here ++ List.replicate (m.feed b).1.shown 0xfffd =
        List.replicate m.shown 0xfffd ++ (m.own.feed b).2.flatMap codeUnits := by
  obtain ⟨r, k⟩ := m
  by_cases hk : k = 0
  · subst hk
    refine ⟨⟨h.sane.feed b, fun hne => absurd rfl hne⟩, rfl, rfl, Glyph.whole_ofPoints _, ?_⟩
    exact (List.append_nil _).trans (Glyph.here_ofPoints _)
  · have hneeded : r.needed ≠ 0 := h.inside hk
    have hown : own ⟨r, k⟩ = .between := if_neg hk
    have hlower : 0x80 ≤ r.lower := h.sane.lower
    have hupper : r.upper ≤ 0xbf := h.sane.upper
    rw [hown, Utf8Reader.feed_between]
    by_cases hfit : r.lower ≤ b ∧ b ≤ r.upper
    · have hlead := Utf8Reader.lead_inside (b := b) (by omega)
      by_cases h1 : r.needed = 1
      · -- the character ends
        have hfeed : feed ⟨r, k⟩ b = (⟨.between, 0⟩, Glyph.shown (r.point * 0x40 + (b - 0x80)) (k + 1)) := by
          rw [feed, if_neg hk, if_pos hfit, if_pos h1]
        have hreader : r.feed b = (.between, [r.point * 0x40 + (b - 0x80)]) := by
          rw [Utf8Reader.feed, if_neg hneeded, if_pos hfit]
          exact if_pos h1
        obtain ⟨hhere, hwhole⟩ := Glyph.shown_of_two (k := k + 1) (by omega) (h.sane.point hfit h1)
        rw [hfeed, hreader, hlead]
        refine ⟨⟨Utf8Reader.sane_between, fun hne => absurd rfl hne⟩, rfl, rfl, ?_, ?_⟩
        · rw [hwhole, List.flatMap_singleton]
        · rw [hhere, List.flatMap_singleton, Glyph.codeUnits_replacement, List.replicate_succ', List.replicate_zero,
            List.append_nil]
      · have hfeed : feed ⟨r, k⟩ b = (⟨(r.feed b).1, k + 1⟩, []) := by rw [feed, if_neg hk, if_pos hfit, if_neg h1]
        have hreader : r.feed b = (⟨r.needed - 1, r.point * 0x40 + (b - 0x80), 0x80, 0xbf⟩, []) := by
          rw [Utf8Reader.feed, if_neg hneeded, if_pos hfit]
          exact if_neg h1
        rw [hfeed, hlead, hreader]
        refine ⟨⟨h.sane.more hfit hneeded h1, fun _ => ?_⟩, rfl, if_neg (Nat.succ_ne_zero k), rfl, ?_⟩
        · dsimp only
          omega
        · rw [List.flatMap_singleton, Glyph.codeUnits_replacement, ← List.replicate_succ']
          rfl
    · have hfeed : feed ⟨r, k⟩ b = (⟨(Utf8Reader.lead b).1, 0⟩,
          Glyph.shown 0xfffd k ++ (Utf8Reader.lead b).2.flatMap Glyph.ofPoint) := by rw [feed, if_neg hk, if_neg hfit]
      have hreader : r.feed b = ((Utf8Reader.lead b).1, 0xfffd :: (Utf8Reader.lead b).2) := by
        rw [Utf8Reader.feed, if_neg hneeded, if_neg hfit]
      obtain ⟨hhere, hwhole⟩ := Glyph.shown_replacement hk
      rw [hfeed, hreader]
      refine ⟨⟨Utf8Reader.sane_lead b, fun hne => absurd rfl hne⟩, rfl, rfl, ?_, ?_⟩
      · rw [List.flatMap_append, hwhole, Glyph.whole_ofPoints, List.flatMap_cons, Glyph.codeUnits_replacement]
      · rw [List.flatMap_append, hhere, Glyph.here_ofPoints, List.replicate_zero, List.append_nil]

/-- What a payload does. -/
private theorem payload_spec {m : Seam} (h : m.Good) (p : List UInt8) :
    (m.payload p).1.Good ∧
      (∀ more, (m.reader.points (p ++ more)).flatMap codeUnits =
        (m.payload p).2.flatMap Glyph.whole ++ ((m.payload p).1.reader.points more).flatMap codeUnits) ∧
      (m.payload p).2.flatMap Glyph.here ++ List.replicate (m.payload p).1.border.shown 0xfffd =
        List.replicate m.shown 0xfffd ++ (m.own.points p).flatMap codeUnits := by
  induction p generalizing m with
  | nil =>
    refine ⟨h, fun more => rfl, ?_⟩
    show List.replicate m.border.shown 0xfffd = _
    by_cases hk : m.shown = 0
    · by_cases hn : m.reader.needed = 0
      · have hborder : m.border = m := if_neg fun hboth => hboth.1 hn
        rw [hborder, own, if_pos hk, Utf8Reader.points, if_pos hn, List.flatMap_nil, List.append_nil]
      · have hborder : m.border = { m with shown := 1 } := if_pos ⟨hn, hk⟩
        rw [hborder, own, if_pos hk, Utf8Reader.points, if_neg hn, List.flatMap_singleton, Glyph.codeUnits_replacement, hk]
        rfl
    · have hborder : m.border = m := if_neg fun hboth => hk hboth.2
      have hnone : Utf8Reader.between.points [] = [] := rfl
      rw [hborder, own, if_neg hk, hnone, List.flatMap_nil, List.append_nil]
  | cons b p ih =>
    obtain ⟨hgood, hreader, hown, hwhole, hhere⟩ := feed_spec h b.toNat
    obtain ⟨hgood', hwhole', hhere'⟩ := ih hgood
    refine ⟨hgood', fun more => ?_, ?_⟩
    · rw [List.cons_append, Utf8Reader.points, List.flatMap_append, ← hreader, hwhole' more, ← hwhole]
      exact (List.append_assoc _ _ _).symm.trans (by rw [payload, List.flatMap_append])
    · rw [Utf8Reader.points, List.flatMap_append, ← List.append_assoc, ← hhere, List.append_assoc, ← hown, ← hhere',
        payload, List.flatMap_append, List.append_assoc]

private theorem border_spec {m : Seam} (h : m.Good) :
    m.border.Good ∧ m.border.reader = m.reader ∧ m.border.own = .between := by
  by_cases hk : m.shown = 0
  · by_cases hn : m.reader.needed = 0
    · have hborder : m.border = m := if_neg fun hboth => hboth.1 hn
      rw [hborder, own, if_pos hk]
      exact ⟨h, rfl, h.sane.idle hn⟩
    · have hborder : m.border = { m with shown := 1 } := if_pos ⟨hn, hk⟩
      rw [hborder]
      exact ⟨⟨h.sane, fun _ => hn⟩, rfl, rfl⟩
  · have hborder : m.border = m := if_neg fun hboth => hk hboth.2
    rw [hborder, own, if_neg hk]
    exact ⟨h, rfl, rfl⟩

private theorem glyphs_spec {m : Seam} (h : m.Good) (hown : m.own = .between) (ps : List (List UInt8)) :
    (m.glyphs ps).flatMap Glyph.whole = (m.reader.points ps.flatten).flatMap codeUnits ∧
      (m.glyphs ps).flatMap Glyph.here = List.replicate m.shown 0xfffd ++ ps.flatMap decodeUtf8 := by
  induction ps generalizing m with
  | nil =>
    rw [glyphs, List.flatten_nil, Utf8Reader.points, List.flatMap_nil, List.append_nil]
    by_cases hn : m.reader.needed = 0
    · have hk : m.shown = 0 := by
        by_contra hk
        exact h.inside hk hn
      rw [if_pos hn, if_pos hn, hk]
      exact ⟨rfl, rfl⟩
    · have hk : m.shown ≠ 0 := by
        intro hk
        rw [own, if_pos hk] at hown
        rw [hown] at hn
        exact hn rfl
      obtain ⟨hhere, hwhole⟩ := Glyph.shown_replacement hk
      rw [if_neg hn, if_neg hn, hhere, hwhole, List.flatMap_singleton, Glyph.codeUnits_replacement]
      exact ⟨rfl, rfl⟩
  | cons p ps ih =>
    obtain ⟨hgood, hwhole, hhere⟩ := payload_spec h p
    obtain ⟨hborder, hreader, hown'⟩ := border_spec hgood
    obtain ⟨hwhole', hhere'⟩ := ih hborder hown'
    rw [glyphs, List.flatMap_append, List.flatMap_append, hwhole', hhere', List.flatten_cons, hwhole, hreader,
      List.flatMap_cons, ← List.append_assoc, hhere, hown, ← List.append_assoc]
    exact ⟨rfl, rfl⟩

end Seam

/-- The text that the code decodes, and the text of all payloads, glyph by glyph. -/
private theorem glyphsOf_spec (ps : List (List UInt8)) :
    (glyphsOf ps).flatMap Glyph.whole = decodeUtf8 ps.flatten ∧
      (glyphsOf ps).flatMap Glyph.here = ps.flatMap decodeUtf8 :=
  Seam.glyphs_spec ⟨Utf8Reader.sane_between, fun h => absurd rfl h⟩ rfl ps

private theorem units_of_point {c : ℕ} (h : 0x80 ≤ c ∧ c < 0x110000) :
    codeUnits c ≠ [] ∧ (∀ u ∈ codeUnits c, 0x80 ≤ u.toNat) ∧ (codeUnits c).count 0xfffd ≤ 1 := by
  unfold codeUnits
  split
  · rename_i hsmall
    refine ⟨List.cons_ne_nil _ _, fun u hu => ?_, List.count_le_length.trans le_rfl⟩
    rw [List.mem_singleton.1 hu, UInt16.toNat_ofNat_of_lt' hsmall]
    exact h.1
  · rename_i hlarge
    have hhigh : (UInt16.ofNat (0xd800 + (c - 0x10000) / 0x400)).toNat = 0xd800 + (c - 0x10000) / 0x400 :=
      UInt16.toNat_ofNat_of_lt' (by show _ < 65536; omega)
    have hlow : (UInt16.ofNat (0xdc00 + (c - 0x10000) % 0x400)).toNat = 0xdc00 + (c - 0x10000) % 0x400 :=
      UInt16.toNat_ofNat_of_lt' (by show _ < 65536; omega)
    refine ⟨List.cons_ne_nil _ _, fun u hu => ?_, ?_⟩
    · rcases List.mem_cons.1 hu with rfl | hu
      · rw [hhigh]
        omega
      · rw [List.mem_singleton.1 hu, hlow]
        omega
    · have hne : UInt16.ofNat (0xdc00 + (c - 0x10000) % 0x400) ≠ 0xfffd := by
        intro heq
        have hnat := congrArg UInt16.toNat heq
        rw [hlow, show (0xfffd : UInt16).toNat = 0xfffd from rfl] at hnat
        omega
      rw [List.count_cons, List.count_singleton, if_neg (by rwa [beq_iff_eq])]
      split <;> omega

namespace Glyph

private theorem shows_here : Shows view here := by
  intro g
  cases g with
  | unit u => exact Or.inl rfl
  | broken c n lo hi =>
    refine Or.inr ⟨view_broken, by simp [here], fun u hu => ?_⟩
    rw [List.eq_of_mem_replicate hu]
    decide

private theorem shows_whole : Shows view whole := by
  intro g
  cases g with
  | unit u => exact Or.inl rfl
  | broken c n lo hi =>
    obtain ⟨hne, hall, -⟩ := units_of_point ⟨lo, hi⟩
    exact Or.inr ⟨view_broken, hne, hall⟩

/-- The code shows a replacement character more for every broken one. -/
private theorem count_le (gs : List Glyph) :
    (gs.flatMap whole).count 0xfffd + gs.countP isBroken ≤ (gs.flatMap here).count 0xfffd := by
  induction gs with
  | nil => exact le_rfl
  | cons g gs ih =>
    rw [List.flatMap_cons, List.flatMap_cons, List.count_append, List.count_append, List.countP_cons]
    cases g with
    | unit u =>
      show [u].count 0xfffd + _ + (_ + 0) ≤ [u].count 0xfffd + _
      omega
    | broken c n lo hi =>
      have hone := (units_of_point ⟨lo, hi⟩).2.2
      have hmany : (List.replicate (n + 2) (0xfffd : UInt16)).count 0xfffd = n + 2 := List.count_replicate_self
      show (codeUnits c).count 0xfffd + _ + (_ + 1) ≤ (List.replicate (n + 2) (0xfffd : UInt16)).count 0xfffd + _
      omega

/-- Both texts are the same exactly when nothing in them is broken. -/
private theorem here_eq_whole_iff (gs : List Glyph) :
    gs.flatMap here = gs.flatMap whole ↔ ∀ g ∈ gs, g.isBroken = false := by
  constructor
  · intro h g hg
    have hle := count_le gs
    rw [h] at hle
    have hzero : gs.countP isBroken = 0 := by omega
    simpa using List.countP_eq_zero.1 hzero g hg
  · intro h
    refine List.flatMap_congr fun g hg => ?_
    cases g with
    | unit u => rfl
    | broken c n lo hi => cases h _ hg

end Glyph

/-! ### Logs in frames -/

/-- What is shown of a log in frames: the text of all payloads, without escape sequences. -/
def FramesRead (frames : List LogFrame) : Prop :=
  ∀ fuel, (frames.flatMap LogFrame.bytes).length < fuel →
    demuxLogs fuel (frames.flatMap LogFrame.bytes) = some (stripAnsi (decodeUtf8 (frames.flatMap LogFrame.payload)))

private theorem demuxLogs_frames (frames : List LogFrame) {fuel : ℕ}
    (h : (frames.flatMap LogFrame.bytes).length < fuel) :
    demuxLogs fuel (frames.flatMap LogFrame.bytes) =
      some (stripAnsi (frames.flatMap fun f => decodeUtf8 f.payload)) := by
  cases frames with
  | nil => rfl
  | cons f frames =>
    have hlen : ∀ fs : List LogFrame, fs.length ≤ (fs.flatMap LogFrame.bytes).length := by
      intro fs
      induction fs with
      | nil => exact le_rfl
      | cons f fs ih =>
        rw [List.flatMap_cons, List.length_append, List.length_cons, LogFrame.bytes]
        simp only [List.length_cons]
        omega
    have height : ¬ ((f :: frames).flatMap LogFrame.bytes).length < 8 := by
      rw [List.flatMap_cons, List.length_append, LogFrame.bytes]
      simp only [List.length_cons]
      omega
    have hframed : isFramed ((f :: frames).flatMap LogFrame.bytes) = true := f.isFramed_bytes _
    rw [demuxLogs, if_neg height, if_neg (by rw [hframed]; decide),
      demuxLoop_frames (f :: frames) (lt_of_le_of_lt (hlen (f :: frames)) h), Option.map_some, List.flatMap_def]

/-- A log in frames is shown as it should be exactly when every character that frames meet inside of is taken out with an
escape sequence. -/
private theorem framesRead_iff (frames : List LogFrame) :
    FramesRead frames ↔
      ∀ g ∈ stripBy Glyph.view (glyphsOf (frames.map LogFrame.payload)), g.isBroken = false := by
  obtain ⟨hwhole, hhere⟩ := glyphsOf_spec (frames.map LogFrame.payload)
  rw [← List.flatMap_def] at hwhole
  rw [List.flatMap_map] at hhere
  have hiff := Glyph.here_eq_whole_iff (stripBy Glyph.view (glyphsOf (frames.map LogFrame.payload)))
  rw [← Glyph.shows_here.strip, ← Glyph.shows_whole.strip, hwhole, hhere] at hiff
  rw [← hiff]
  constructor
  · intro h
    have hread := h _ (Nat.lt_succ_self _)
    rw [demuxLogs_frames frames (Nat.lt_succ_self _)] at hread
    exact Option.some.inj hread
  · intro h fuel hfuel
    rw [demuxLogs_frames frames hfuel, h]

/-! ### Logs of a terminal -/

namespace Utf8Reader

/-- The units of a text that are ASCII are bytes of it. -/
private theorem Sane.ascii_mem {r : Utf8Reader} (h : r.Sane) {bs : List UInt8} {u : UInt16}
    (hu : u ∈ (r.points bs).flatMap codeUnits) (hascii : u.toNat < 0x80) : ∃ b ∈ bs, b.toNat = u.toNat := by
  have hfffd : u ∉ codeUnits 0xfffd := by
    intro hmem
    have hge := (units_of_point (c := 0xfffd) (by omega)).2.1 u hmem
    omega
  have hlead : ∀ b : ℕ, u ∈ (lead b).2.flatMap codeUnits → b = u.toNat := by
    intro b hmem
    unfold lead at hmem
    split at hmem
    · rename_i hb
      rw [List.flatMap_singleton, codeUnits_small (by omega), List.mem_singleton] at hmem
      rw [hmem, UInt16.toNat_ofNat_of_lt' (by show b < 65536; omega)]
    · split at hmem
      · cases hmem
      · split at hmem
        · cases hmem
        · split at hmem
          · cases hmem
          · rw [List.flatMap_singleton] at hmem
            exact absurd hmem hfffd
  induction bs generalizing r with
  | nil =>
    rw [points] at hu
    split at hu
    · cases hu
    · rw [List.flatMap_singleton] at hu
      exact absurd hu hfffd
  | cons b bs ih =>
    rw [points, List.flatMap_append, List.mem_append] at hu
    rcases hu with hu | hu
    · refine ⟨b, List.mem_cons_self, ?_⟩
      unfold Utf8Reader.feed at hu
      split at hu
      · exact hlead b.toNat hu
      · split at hu
        · rename_i hfit
          dsimp only at hu
          split at hu
          · rename_i h1
            rw [List.flatMap_singleton] at hu
            have hge := (units_of_point (h.point hfit h1)).2.1 u hu
            omega
          · cases hu
        · rw [List.flatMap_cons, List.mem_append] at hu
          rcases hu with hu | hu
          · exact absurd hu hfffd
          · exact hlead b.toNat hu
    · obtain ⟨b', hb', heq⟩ := ih (h.feed b.toNat) hu
      exact ⟨b', List.mem_cons_of_mem b hb', heq⟩

/-- An ASCII byte is a character of its own, whatever is before it. -/
private theorem Sane.points_break {r : Utf8Reader} (h : r.Sane) {x : UInt8} (hx : x.toNat < 0x80) (a b : List UInt8) :
    r.points (a ++ x :: b) = r.points a ++ between.points (x :: b) := by
  induction a generalizing r with
  | nil =>
    have hlower := h.lower
    rw [List.nil_append, points, points, points, feed_between, Utf8Reader.feed]
    by_cases hn : r.needed = 0
    · rw [if_pos hn, if_pos hn]
      rfl
    · rw [if_neg hn, if_neg (by omega), if_neg hn]
      rfl
  | cons y a ih => rw [List.cons_append, points, points, ih (h.feed y.toNat), List.append_assoc]

/-- More bytes are no fewer units. -/
theorem Sane.length_append {r : Utf8Reader} (h : r.Sane) (a b : List UInt8) :
    ((r.points a).flatMap codeUnits).length ≤ ((r.points (a ++ b)).flatMap codeUnits).length := by
  induction a generalizing r with
  | nil =>
    rw [List.nil_append, points]
    split
    · exact Nat.zero_le _
    · rename_i hn
      rw [List.flatMap_singleton, Glyph.codeUnits_replacement, List.length_singleton]
      induction b generalizing r with
      | nil =>
        rw [points, if_neg hn, List.flatMap_singleton, Glyph.codeUnits_replacement]
        exact le_rfl
      | cons x b ihb =>
        rw [points, List.flatMap_append, List.length_append]
        unfold Utf8Reader.feed
        rw [if_neg hn]
        split
        · rename_i hfit
          dsimp only
          split
          · rename_i h1
            have hpos := List.length_pos_iff.2 (units_of_point (h.point hfit h1)).1
            rw [List.flatMap_singleton]
            omega
          · rename_i h1
            have hmore := h.more hfit hn h1
            have hrest := ihb hmore (by dsimp only; omega)
            exact hrest.trans (Nat.le_add_left _ _)
        · rw [List.flatMap_cons, List.length_append, Glyph.codeUnits_replacement, List.length_singleton]
          omega
  | cons y a ih =>
    rw [List.cons_append, points, points, List.flatMap_append, List.flatMap_append, List.length_append,
      List.length_append]
    exact Nat.add_le_add_left (ih (h.feed y.toNat)) _

/-- A reader that is inside of a character makes at most as many units fewer of the bytes after it as it still needs. -/
private theorem Sane.length_between {r : Utf8Reader} (h : r.Sane) (bs : List UInt8) :
    ((between.points bs).flatMap codeUnits).length ≤ ((r.points bs).flatMap codeUnits).length + r.needed := by
  induction bs generalizing r with
  | nil => exact Nat.zero_le _
  | cons b bs ih =>
    rw [points, points, feed_between, List.flatMap_append, List.flatMap_append, List.length_append, List.length_append]
    unfold Utf8Reader.feed
    by_cases hn : r.needed = 0
    · rw [if_pos hn]
      omega
    · rw [if_neg hn]
      split
      · rename_i hfit
        have hlower := h.lower
        have hupper := h.upper
        rw [lead_inside (by omega), List.flatMap_singleton, Glyph.codeUnits_replacement, List.length_singleton]
        dsimp only
        split
        · rename_i h1
          have hpos := List.length_pos_iff.2 (units_of_point (h.point hfit h1)).1
          rw [List.flatMap_singleton]
          dsimp only
          omega
        · rename_i h1
          have hrest := ih (h.more hfit hn h1)
          dsimp only at hrest ⊢
          omega
      · rw [List.flatMap_cons, List.length_append]
        dsimp only
        omega

theorem Sane.after {r : Utf8Reader} (h : r.Sane) (bs : List UInt8) : (r.after bs).Sane := by
  induction bs generalizing r with
  | nil => exact h
  | cons b bs ih => exact ih (h.feed b.toNat)

/-- What is read of some bytes stays when more come. -/
private theorem exists_points_append (r : Utf8Reader) (as : List UInt8) :
    ∃ cs, ∀ bs, r.points (as ++ bs) = cs ++ (r.after as).points bs := by
  induction as generalizing r with
  | nil => exact ⟨[], fun bs => rfl⟩
  | cons a as ih =>
    obtain ⟨cs, hcs⟩ := ih (r.feed a.toNat).1
    refine ⟨(r.feed a.toNat).2 ++ cs, fun bs => ?_⟩
    rw [List.cons_append, points, hcs, List.append_assoc]
    rfl

end Utf8Reader

private theorem isFramed_iff {buf : List UInt8} (h : isFramed buf = true) :
    ∃ a rest, buf = a :: 0 :: 0 :: 0 :: rest ∧ a.toNat < 0x80 := by
  unfold isFramed at h
  split at h
  · rename_i a b c d rest
    simp only [Bool.and_eq_true, decide_eq_true_eq, beq_iff_eq] at h
    obtain ⟨⟨⟨ha, rfl⟩, rfl⟩, rfl⟩ := h
    have hle := UInt8.le_iff_toNat_le.1 ha
    exact ⟨a, rest, rfl, lt_of_le_of_lt hle (by decide)⟩
  · cases h

/-- A header is four units at least, three of which what comes after it may cost. -/
private theorem length_header {a e f g h : UInt8} (ha : a.toNat < 0x80) (rest : List UInt8) :
    (decodeUtf8 rest).length < (decodeUtf8 (a :: 0 :: 0 :: 0 :: e :: f :: g :: h :: rest)).length := by
  have hascii : ∀ b ∈ [a, 0, 0, 0], b.toNat < 0x80 := by
    intro b hb
    rcases List.mem_cons.1 hb with rfl | hb
    · exact ha
    · rw [List.eq_of_mem_replicate (n := 3) hb]
      decide
  obtain ⟨hends, hdecode⟩ := decodeUtf8_ascii hascii
  have happ := decodeUtf8_append hends (e :: f :: g :: h :: rest)
  obtain ⟨cs, hcs⟩ := Utf8Reader.between.exists_points_append [e, f, g, h]
  have hsane := Utf8Reader.sane_between.after [e, f, g, h]
  have hlen := hsane.length_between rest
  have hfew := hsane.few
  have hpoints := hcs rest
  rw [hdecode] at happ
  show _ < (decodeUtf8 ([a, 0, 0, 0] ++ e :: f :: g :: h :: rest)).length
  rw [happ, List.length_append, List.length_map]
  have hmore : (decodeUtf8 (e :: f :: g :: h :: rest)).length =
      (cs.flatMap codeUnits).length + (((Utf8Reader.between.after [e, f, g, h]).points rest).flatMap codeUnits).length := by
    rw [decodeUtf8, show e :: f :: g :: h :: rest = [e, f, g, h] ++ rest from rfl, hpoints, List.flatMap_append,
      List.length_append]
  rw [hmore, decodeUtf8]
  simp only [List.length_cons, List.length_nil]
  omega

/-- The text of the frames that the loop finds is shorter than the text of the log. -/
private theorem length_demuxLoop {fuel : ℕ} {buf : List UInt8} {out : List JsString}
    (h : demuxLoop fuel buf = some out) :
    out = [] ∨ isFramed buf = true ∧ out.flatten.length < (decodeUtf8 buf).length := by
  fun_induction demuxLoop fuel buf generalizing out with
  | case1 => cases h
  | case2 => exact Or.inl (Option.some.inj h).symm
  | case3 fuel a b c d e f g x rest hframed len =>
    rename_i ih
    obtain ⟨more, hmore, rfl⟩ := Option.map_eq_some_iff.1 h
    have hframed : isFramed [a, b, c, d] = true := by simpa using hframed
    obtain ⟨a', rest', heq, ha⟩ := isFramed_iff hframed
    cases heq
    have hheader := @length_header a e f g x ha rest
    refine Or.inr ⟨by simpa [isFramed] using hframed, ?_⟩
    refine lt_of_le_of_lt ?_ hheader
    rw [List.flatten_cons, List.length_append]
    have hsplit : rest = rest.take len ++ rest.drop len := (List.take_append_drop len rest).symm
    rcases ih hmore with rfl | ⟨hdrop, hlen⟩
    · -- nothing comes after this frame
      have hle := Utf8Reader.sane_between.length_append (rest.take len) (rest.drop len)
      rw [← hsplit] at hle
      simpa [decodeUtf8] using hle
    · obtain ⟨y, tail, htail, hy⟩ := isFramed_iff hdrop
      have hbreak := Utf8Reader.sane_between.points_break hy (rest.take len) (0 :: 0 :: 0 :: tail)
      have hdecode : decodeUtf8 rest = decodeUtf8 (rest.take len) ++ decodeUtf8 (rest.drop len) := by
        conv_lhs => rw [hsplit]
        rw [htail, decodeUtf8, hbreak, List.flatMap_append]
        rfl
      rw [hdecode, List.length_append]
      omega
  | case4 => exact Or.inl (Option.some.inj h).symm

/-- A text without an escape is left as it is. -/
private theorem noEscapes_of_notMem {s : JsString} (h : (0x1b : UInt16) ∉ s) : NoEscapes id s := by
  have hone : ∀ t : JsString, t <:+ s → Scan.one isEsc t = none := by
    intro t ht
    cases t with
    | nil => rfl
    | cons u t =>
      have hne : u ≠ 0x1b := by
        rintro rfl
        exact h (ht.subset List.mem_cons_self)
      rw [Scan.one, if_neg]
      rwa [isEsc, beq_iff_eq]
  have hnone : ∀ {next : JsString → Option JsString} (t : JsString), t <:+ s → (Scan.one isEsc t).bind next = none := by
    intro next t ht
    rw [hone t ht]
    rfl
  exact ⟨fun t ht => hnone t ht, fun t ht => hnone t ht, fun t ht => hnone t ht⟩

/-- What is shown of the log of a terminal: its text, without escape sequences. -/
def RawRead (raw : List UInt8) : Prop :=
  ∀ fuel, raw.length < fuel → demuxLogs fuel raw = some (stripAnsi (decodeUtf8 raw))

/-- A log that begins like a frame, with no escape in it, is not shown as it is. -/
private theorem not_rawRead_of_framed {raw : List UInt8} (hlen : ¬ raw.length < 8) (hframed : isFramed raw = true)
    (hesc : (0x1b : UInt8) ∉ raw) : ¬ RawRead raw := by
  intro h
  have hread := h _ (Nat.lt_succ_self _)
  rw [demuxLogs, if_neg hlen, if_neg (by rw [hframed]; decide)] at hread
  obtain ⟨out, hout, heq⟩ := Option.map_eq_some_iff.1 hread
  have htext : (0x1b : UInt16) ∉ decodeUtf8 raw := by
    intro hmem
    obtain ⟨b, hb, hbyte⟩ := Utf8Reader.sane_between.ascii_mem hmem (by decide)
    refine hesc ?_
    rw [← UInt8.toNat_inj.1 (hbyte.trans (show (0x1b : UInt16).toNat = (0x1b : UInt8).toNat from rfl))]
    exact hb
  have hself : stripAnsi (decodeUtf8 raw) = decodeUtf8 raw := (stripBy_eq_self_iff id _).2 (noEscapes_of_notMem htext)
  have hle : (stripAnsi out.flatten).length ≤ out.flatten.length :=
    (((keypad id).remove_sublist _).trans (((osc id).remove_sublist _).trans ((csi id).remove_sublist _))).length_le
  have hpos : 0 < (decodeUtf8 raw).length := by
    obtain ⟨a, rest, rfl, ha⟩ := isFramed_iff hframed
    have hbreak := Utf8Reader.sane_between.points_break ha [] (0 :: 0 :: 0 :: rest)
    rw [decodeUtf8, Utf8Reader.points, Utf8Reader.feed_between, Utf8Reader.lead, if_pos ha, List.flatMap_append,
      List.length_append, List.flatMap_singleton, codeUnits_small (by omega), List.length_singleton]
    omega
  rw [heq, hself] at hle
  rcases length_demuxLoop hout with rfl | ⟨-, hlt⟩
  · rw [List.flatten_nil, List.length_nil] at hle
    omega
  · omega

/-- **The text of a log.**  A log in frames, of any payloads cut anywhere, is shown as the text of all payloads without
escape sequences exactly when every character that frames meet inside of is taken out with an escape sequence.  The log of
a terminal is shown as its text without escape sequences exactly when it has eight bytes and does not begin like a frame,
or has fewer and no escape sequence; of those that begin like a frame and have an escape in them nothing is said.  On any
bytes the loop ends. -/
theorem logs_read_iff (frames : List LogFrame) (raw buf : List UInt8) (fuel : ℕ) (hfuel : buf.length < fuel)
    (hraw : (0x1b : UInt8) ∈ raw → raw.length < 8 ∨ isFramed raw = false) :
    (FramesRead frames ↔ ∀ g ∈ stripBy Glyph.view (glyphsOf (frames.map LogFrame.payload)), g.isBroken = false) ∧
      (RawRead raw ↔ 8 ≤ raw.length ∧ isFramed raw = false ∨ raw.length < 8 ∧ NoEscapes id (decodeUtf8 raw)) ∧
      (demuxLogs fuel buf).isSome = true := by
  refine ⟨framesRead_iff frames, ?_, demuxLogs_isSome hfuel⟩
  by_cases hlen : raw.length < 8
  · have hlogs : ∀ n, demuxLogs n raw = some (decodeUtf8 raw) := fun n => if_pos hlen
    have hself := stripBy_eq_self_iff id (decodeUtf8 raw)
    constructor
    · intro h
      have hread := h _ (Nat.lt_succ_self _)
      rw [hlogs] at hread
      exact Or.inr ⟨hlen, hself.1 (Option.some.inj hread).symm⟩
    · rintro (⟨hle, -⟩ | ⟨-, hno⟩) n hn
      · omega
      · rw [hlogs]
        exact congrArg some (hself.2 hno).symm
  · cases hframed : isFramed raw with
    | false =>
      refine iff_of_true (fun n hn => ?_) (Or.inl ⟨not_lt.1 hlen, rfl⟩)
      rw [demuxLogs, if_neg hlen, if_pos (by rw [hframed]; rfl)]
    | true =>
      have hesc : (0x1b : UInt8) ∉ raw := by
        intro hmem
        rcases hraw hmem with hlt | hno
        · exact hlen hlt
        · rw [hframed] at hno
          cases hno
      refine iff_of_false (not_rawRead_of_framed hlen hframed hesc) ?_
      rintro (⟨-, hno⟩ | ⟨hlt, -⟩)
      · cases hno
      · exact hlen hlt

/-- A euro sign in two frames. -/
private def euro : List LogFrame := [⟨1, [0xe2], by decide⟩, ⟨1, [0x82, 0xac], by decide⟩]

/-- A euro sign that frames cut, a short log with an escape sequence, and the log of a terminal that begins like a
frame. -/
theorem logs_misread : ¬ FramesRead euro ∧ ¬ RawRead [0x1b, 0x5b, 0x33, 0x31, 0x6d] ∧
    ¬ RawRead [1, 0, 0, 0, 0, 0, 0, 0, 0x61] := by
  refine ⟨fun h => ?_, fun h => ?_, fun h => ?_⟩
  · exact absurd (h 100 (by decide +kernel)) (by decide +kernel)
  · exact absurd (h 100 (by decide +kernel)) (by decide +kernel)
  · exact absurd (h 100 (by decide +kernel)) (by decide +kernel)

/-- Frames that meet between characters, and in the title of a window; a log of eight bytes. -/
theorem logs_read_title :
    FramesRead [⟨1, [0x61], by decide⟩, ⟨2, [0x1b, 0x5d, 0xe2], by decide⟩, ⟨2, [0x82, 0xac, 7], by decide⟩] ∧
      RawRead [0x1b, 0x5b, 0x33, 0x31, 0x6d, 0x61, 0x62, 0x63] := by
  obtain ⟨hframes, hraw, -⟩ := logs_read_iff
    [⟨1, [0x61], by decide⟩, ⟨2, [0x1b, 0x5d, 0xe2], by decide⟩, ⟨2, [0x82, 0xac, 7], by decide⟩]
    [0x1b, 0x5b, 0x33, 0x31, 0x6d, 0x61, 0x62, 0x63] [] 1 (by decide) (fun _ => Or.inr (by decide))
  exact ⟨hframes.2 (by decide +kernel), hraw.2 (Or.inl (by decide))⟩

end Servitals
