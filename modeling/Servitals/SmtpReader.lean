import Servitals.Lib.Feed
import Servitals.Smtp
import Servitals.Utf8

/-!
# The replies of a mail server

The reader of `sendMail` (`onData` and `read`), apart from the dialogue.  What it hands out is what the whole stream
says, as lines up to one that begins with a code and a space: the replies asked for so far are its first ones, in order,
whatever the chunks and whether a reply was asked for before or after it came (`handed_in_order`).

A reply is asked for when no other is still to come: each `read` of the dialogue is awaited before the next.
-/

namespace Servitals

/-! ### The whole stream -/

/-- The lines of a stream that are complete, after a line that began with `cur`. -/
def linesFrom (cur : JsString) : JsString → List JsString
  | u :: v :: s => if u = 0x0d ∧ v = 0x0a then cur :: linesFrom [] s else linesFrom (cur ++ [u]) (v :: s)
  | _ => []

/-- Does the line end a reply: a code, and then a space or nothing? -/
def endsReply (l : JsString) : Bool :=
  (l.take 3).length == 3 && (l.take 3).all isDigit && (l.drop 3).head?.all (· == 0x20)

/-- The lines of the complete replies, after the lines `acc`. -/
def repliesFrom (acc : List JsString) : List JsString → List (List JsString)
  | [] => []
  | l :: ls => if endsReply l then (acc ++ [l]) :: repliesFrom [] ls else repliesFrom (acc ++ [l]) ls

/-- The code and the lines of a reply. -/
def replyOf (ls : List JsString) : ℕ × List JsString :=
  (decimal ((ls.getLast?.getD []).take 3), ls.map fun l => l.drop 4)

/-- The replies of a stream. -/
def repliesOf (stream : JsString) : List (ℕ × List JsString) := (repliesFrom [] (linesFrom [] stream)).map replyOf

/-! ### The reader -/

/-- The reader of a call, and the replies it handed out. -/
structure MailReader where
  mail : Mail
  handed : List MailReply

namespace MailReader

/-- A promise that was resolved is taken by the dialogue. -/
def take (s : MailReader) : MailReader :=
  match s.mail.inbox with
  | some r => ⟨{ s.mail with inbox := none }, s.handed ++ [r]⟩
  | none => s

inductive Op
  | data (chunk : List UInt8)
  | read

def step (s : MailReader) : Op → MailReader
  | .data chunk => take { s with mail := s.mail.onData (decodeUtf8 chunk) }
  | .read => take { s with mail := s.mail.read }

/-- A call whose socket is connected. -/
def start (o : MailOptions) (link : MailLink) : MailReader := ⟨{ Mail.start o with link := link }, []⟩

/-- No reply is asked for while another one is still to come. -/
def oneAtATime (s : MailReader) : Op → Prop
  | .read => s.mail.waiting = false
  | .data _ => True

instance (s : MailReader) : (x : Op) → Decidable (s.oneAtATime x)
  | .read => inferInstanceAs (Decidable (_ = _))
  | .data _ => .isTrue trivial

def Op.bytes : Op → List UInt8
  | .data chunk => chunk
  | .read => []

def Op.isRead : Op → Bool
  | .data _ => false
  | .read => true

/-- The bytes that came. -/
def stream (ops : List Op) : List UInt8 := ops.flatMap Op.bytes

/-- How many replies were asked for. -/
def reads (ops : List Op) : ℕ := ops.countP Op.isRead

end MailReader

/-! ### Cutting a reply off the buffer -/

private theorem length_of_cutLine {buf l rest : List Received} (h : cutLine buf = some (l, rest)) :
    rest.length + 2 ≤ buf.length := by
  induction buf generalizing l rest with
  | nil => cases h
  | cons a buf ih =>
    cases buf with
    | nil => cases h
    | cons b buf =>
      unfold cutLine at h
      split at h
      · cases h
        simp
      · obtain ⟨x, hx, heq⟩ := Option.map_eq_some_iff.1 h
        cases heq
        have := ih hx
        simp only [List.length_cons] at this ⊢
        omega

private theorem cutLine_append {buf l rest : List Received} (h : cutLine buf = some (l, rest)) (more : List Received) :
    cutLine (buf ++ more) = some (l, rest ++ more) := by
  induction buf generalizing l rest with
  | nil => cases h
  | cons a buf ih =>
    cases buf with
    | nil => cases h
    | cons b buf =>
      unfold cutLine at h
      rw [List.cons_append, List.cons_append, cutLine]
      split at h
      · rename_i hbreak
        cases h
        rw [if_pos hbreak]
      · rename_i hbreak
        obtain ⟨x, hx, heq⟩ := Option.map_eq_some_iff.1 h
        cases heq
        rw [if_neg hbreak, ← List.cons_append, ih hx]
        rfl

/-- A line cut off is the first of the complete lines. -/
private theorem linesFrom_of_cutLine (buf : List Received) (cur : JsString) :
    (cutLine buf = none → linesFrom cur (unitsOf buf) = []) ∧
      ∀ l rest, cutLine buf = some (l, rest) →
        linesFrom cur (unitsOf buf) = (cur ++ unitsOf l) :: linesFrom [] (unitsOf rest) := by
  induction buf generalizing cur with
  | nil => exact ⟨fun _ => rfl, fun l rest h => by cases h⟩
  | cons a buf ih =>
    cases buf with
    | nil => exact ⟨fun _ => rfl, fun l rest h => by cases h⟩
    | cons b buf =>
      have hlines : linesFrom cur (unitsOf (a :: b :: buf)) =
          if a.unit = 0x0d ∧ b.unit = 0x0a then cur :: linesFrom [] (unitsOf buf)
          else linesFrom (cur ++ [a.unit]) (unitsOf (b :: buf)) := rfl
      rw [hlines]
      unfold cutLine
      by_cases hbreak : a.unit = 0x0d ∧ b.unit = 0x0a
      · rw [if_pos hbreak, if_pos hbreak]
        refine ⟨fun h => (by cases h), fun l rest h => ?_⟩
        cases h
        exact congrArg (· :: _) (List.append_nil cur).symm
      · rw [if_neg hbreak, if_neg hbreak]
        obtain ⟨hnone, hsome⟩ := ih (cur ++ [a.unit])
        refine ⟨fun h => hnone (Option.map_eq_none_iff.1 h), fun l rest h => ?_⟩
        obtain ⟨x, hx, heq⟩ := Option.map_eq_some_iff.1 h
        cases heq
        rw [hsome x.1 x.2 hx, List.append_assoc]
        rfl

private theorem isFinalLine_eq (l : List Received) : isFinalLine l = endsReply (unitsOf l) := by
  unfold isFinalLine endsReply unitsOf
  rw [← List.map_take, ← List.map_drop, List.length_map, List.all_map, List.head?_map, Option.all_map]
  rfl

private theorem cutReply_append {n : ℕ} {buf rest : List Received} {ls : List (List Received)}
    (h : cutReply n buf = some (ls, rest)) (more : List Received) {m : ℕ} (hm : n ≤ m) :
    cutReply m (buf ++ more) = some (ls, rest ++ more) := by
  induction n generalizing buf ls m with
  | zero => cases h
  | succ n ih =>
    obtain ⟨m, rfl⟩ : ∃ k, m = k + 1 := ⟨m - 1, by omega⟩
    obtain ⟨x, hx, h⟩ := Option.bind_eq_some_iff.1 h
    rw [cutReply, cutLine_append hx, Option.bind_some]
    dsimp only at h ⊢
    split at h
    · rename_i hfinal
      cases h
      rw [if_pos hfinal]
    · rename_i hfinal
      obtain ⟨y, hy, heq⟩ := Option.map_eq_some_iff.1 h
      cases heq
      rw [if_neg hfinal, ih hy (by omega)]
      rfl

private theorem length_of_cutReply {n : ℕ} {buf rest : List Received} {ls : List (List Received)}
    (h : cutReply n buf = some (ls, rest)) : rest.length < buf.length := by
  induction n generalizing buf ls with
  | zero => cases h
  | succ n ih =>
    obtain ⟨x, hx, h⟩ := Option.bind_eq_some_iff.1 h
    have hlen := length_of_cutLine hx
    split at h
    · cases h
      omega
    · obtain ⟨y, hy, heq⟩ := Option.map_eq_some_iff.1 h
      cases heq
      have := ih hy
      omega

/-- The lines of a reply cut off are the first of the complete replies. -/
private theorem repliesFrom_of_cutReply {n : ℕ} {buf : List Received} (hn : buf.length ≤ n) (acc : List JsString) :
    (cutReply n buf = none → repliesFrom acc (linesFrom [] (unitsOf buf)) = []) ∧
      ∀ ls rest, cutReply n buf = some (ls, rest) → repliesFrom acc (linesFrom [] (unitsOf buf)) =
        (acc ++ ls.map unitsOf) :: repliesFrom [] (linesFrom [] (unitsOf rest)) := by
  induction n generalizing buf acc with
  | zero =>
    obtain rfl := List.length_eq_zero_iff.1 (Nat.le_zero.1 hn)
    exact ⟨fun _ => rfl, fun ls rest h => by cases h⟩
  | succ n ih =>
    obtain ⟨hnone, hsome⟩ := linesFrom_of_cutLine buf []
    rw [cutReply]
    cases hx : cutLine buf with
    | none =>
      rw [hnone hx]
      exact ⟨fun _ => rfl, fun ls rest h => by cases h⟩
    | some x =>
      have hlen := length_of_cutLine hx
      rw [hsome x.1 x.2 hx, repliesFrom, List.nil_append, Option.bind_some, isFinalLine_eq]
      split
      · refine ⟨fun h => (by cases h), fun ls rest h => ?_⟩
        cases h
        rfl
      · obtain ⟨hnone', hsome'⟩ := ih (show x.2.length ≤ n by omega) (acc ++ [unitsOf x.1])
        refine ⟨fun h => hnone' (Option.map_eq_none_iff.1 h), fun ls rest h => ?_⟩
        obtain ⟨y, hy, heq⟩ := Option.map_eq_some_iff.1 h
        cases heq
        rw [hsome' y.1 y.2 hy, List.append_assoc]
        rfl

/-- The replies as they are taken off the buffer. -/
def replyCutter : Cutter Received MailReply where
  cut := nextReply
  shorter h := by
    obtain ⟨x, hx, heq⟩ := Option.map_eq_some_iff.1 h
    cases heq
    exact length_of_cutReply hx
  stable := by
    intro buf r rest h more
    obtain ⟨x, hx, heq⟩ := Option.map_eq_some_iff.1 h
    cases heq
    have hlen := length_of_cutReply hx
    have hx' := cutReply_append hx more (m := (buf ++ more).length) (by simp)
    have htaken : (buf ++ more).take ((buf ++ more).length - (x.2 ++ more).length) = buf.take (buf.length - x.2.length) := by
      rw [List.length_append, List.length_append, Nat.add_sub_add_right, List.take_append_of_le_length (by omega)]
    rw [nextReply, hx', Option.map_some, htaken]

/-- The replies of a buffer are those of its lines. -/
private theorem parse_eq_repliesOf (buf : List Received) :
    (replyCutter.parse buf).1.map (fun r => (r.code, r.lines)) = repliesOf (unitsOf buf) := by
  induction buf using replyCutter.induct with
  | hnone buf h =>
    have hcut : cutReply buf.length buf = none := Option.map_eq_none_iff.1 h
    rw [replyCutter.parse_of_none h, repliesOf, (repliesFrom_of_cutReply le_rfl []).1 hcut]
    rfl
  | hsome buf r rest h ih =>
    obtain ⟨x, hx, heq⟩ := Option.map_eq_some_iff.1 h
    cases heq
    rw [replyCutter.parse_of_some h, List.map_cons, ih]
    conv_rhs => rw [repliesOf, (repliesFrom_of_cutReply le_rfl []).2 x.1 x.2 hx]
    rw [List.map_cons, List.nil_append, replyOf, List.getLast?_map, List.map_map]
    cases x.1.getLast? <;> rfl

/-! ### What is handed out -/

namespace MailReader

variable {m : Mail}

/-- The loop of `onData`: without one that waits, the replies of the buffer are kept. -/
private theorem drain_of_idle {n : ℕ} (hn : m.buf.length ≤ n) (hidle : m.waiting = false) :
    Mail.drain n m =
      { m with buf := (replyCutter.parse m.buf).2, replies := m.replies ++ (replyCutter.parse m.buf).1 } := by
  induction n generalizing m with
  | zero =>
    have hnil := List.length_eq_zero_iff.1 (Nat.le_zero.1 hn)
    have hnone : replyCutter.cut m.buf = none := by rw [hnil]; rfl
    rw [replyCutter.parse_of_none hnone, List.append_nil]
    rfl
  | succ n ih =>
    unfold Mail.drain
    split
    · rename_i hnone
      rw [replyCutter.parse_of_none hnone, List.append_nil]
    · rename_i r rest hcut
      have hshort := replyCutter.shorter hcut
      have hdeliver : m.deliver r rest = { m with buf := rest, replies := m.replies ++ [r] } := by
        rw [Mail.deliver, hidle, if_neg Bool.false_ne_true]
      have hrest := @ih { m with buf := rest, replies := m.replies ++ [r] } (show rest.length ≤ n by omega) hidle
      rw [hdeliver, hrest, replyCutter.parse_of_some hcut, List.append_assoc]
      rfl

/-- The first goes to the one that waits. -/
private theorem drain_of_waiting {n : ℕ} (hn : m.buf.length ≤ n) (hwaiting : m.waiting = true) :
    ((replyCutter.parse m.buf).1 = [] ∧ Mail.drain n m = { m with buf := (replyCutter.parse m.buf).2 }) ∨
      ∃ r rs, (replyCutter.parse m.buf).1 = r :: rs ∧ Mail.drain n m =
        { m with
          buf := (replyCutter.parse m.buf).2, waiting := false, inbox := some r, replies := m.replies ++ rs } := by
  cases hcut : replyCutter.cut m.buf with
  | none =>
    have hsame : Mail.drain n m = m := by
      cases n with
      | zero => rfl
      | succ n =>
        rw [Mail.drain, show nextReply m.buf = none from hcut]
    rw [replyCutter.parse_of_none hcut, hsame]
    exact Or.inl ⟨rfl, rfl⟩
  | some x =>
    obtain ⟨r, rest⟩ := x
    have hshort := replyCutter.shorter hcut
    obtain ⟨n, rfl⟩ : ∃ k, n = k + 1 := ⟨n - 1, by omega⟩
    have hdeliver : m.deliver r rest = { m with buf := rest, waiting := false, inbox := some r } := if_pos hwaiting
    have hdrain : Mail.drain (n + 1) m = Mail.drain n (m.deliver r rest) := by
      rw [Mail.drain, show nextReply m.buf = some (r, rest) from hcut]
    rw [replyCutter.parse_of_some hcut, hdrain, hdeliver,
      drain_of_idle (m := { m with buf := rest, waiting := false, inbox := some r }) (show rest.length ≤ n by omega) rfl]
    exact Or.inr ⟨r, _, rfl, rfl⟩

/-- What the reader knows of a stream after some calls of `read`. -/
structure Follows (link : MailLink) (n : ℕ) (stream : List Received) (s : MailReader) : Prop where
  buf : s.mail.buf = (replyCutter.parse stream).2
  given : s.handed ++ s.mail.replies = (replyCutter.parse stream).1
  inbox : s.mail.inbox = none
  waiting : s.mail.waiting = true → s.mail.replies = [] ∧ n = s.handed.length + 1
  idle : s.mail.waiting = false → n = s.handed.length
  link : s.mail.link = link

variable {link : MailLink} {n : ℕ} {all : List Received} {s : MailReader}

/-- The replies handed out are as many of the stream's as were asked for. -/
theorem Follows.handed (h : Follows link n all s) : s.handed = (replyCutter.parse all).1.take n := by
  rw [← h.given]
  cases hw : s.mail.waiting with
  | true =>
    obtain ⟨hnil, hn⟩ := h.waiting hw
    rw [hnil, List.append_nil, List.take_of_length_le (by omega)]
  | false => rw [h.idle hw, List.take_left]

private theorem take_of_none (h : s.mail.inbox = none) : s.take = s := by
  unfold MailReader.take
  rw [h]

theorem Follows.read (h : Follows link n all s) (hone : s.mail.waiting = false) :
    Follows link (n + 1) all (s.step .read) := by
  have hn := h.idle hone
  have hgiven := h.given
  show Follows link (n + 1) all (MailReader.take { s with mail := s.mail.read })
  cases hr : s.mail.replies with
  | nil =>
    have hread : s.mail.read = { s.mail with waiting := true } := by
      unfold Mail.read
      split
      · rename_i heq
        rw [hr] at heq
        cases heq
      · rfl
    rw [hread, take_of_none (s := { s with mail := { s.mail with waiting := true } }) h.inbox]
    exact ⟨h.buf, hgiven, h.inbox, fun _ => ⟨hr, by rw [hn]⟩, fun hw => (by cases hw), h.link⟩
  | cons r rs =>
    have hread : s.mail.read = { s.mail with inbox := some r, replies := rs } := by
      unfold Mail.read
      split
      · rename_i heq
        obtain ⟨rfl, rfl⟩ := List.cons.inj (hr.symm.trans heq)
        rfl
      · rename_i heq
        rw [hr] at heq
        cases heq
    rw [hread]
    rw [hr] at hgiven
    refine ⟨h.buf, ?_, rfl, fun hw => ?_, fun _ => ?_, h.link⟩
    · exact (List.append_assoc _ _ _).trans hgiven
    · rw [show s.mail.waiting = true from hw] at hone
      cases hone
    · show n + 1 = (s.handed ++ [r]).length
      rw [List.length_append, hn]
      rfl

/-- What is left of a buffer is no longer than it. -/
private theorem length_parse_le (buf : List Received) : (replyCutter.parse buf).2.length ≤ buf.length := by
  induction buf using replyCutter.induct with
  | hnone buf h => rw [replyCutter.parse_of_none h]
  | hsome buf r rest h ih =>
    have := replyCutter.shorter h
    rw [replyCutter.parse_of_some h]
    exact ih.trans this.le

theorem Follows.data (h : Follows link n all s) {chunk : List UInt8} {new : List Received}
    (hnew : (decodeUtf8 chunk).map (fun u => ⟨u, link⟩) = new) (hsize : (all ++ new).length ≤ 65536) :
    Follows link n (all ++ new) (s.step (.data chunk)) := by
  have hparse := replyCutter.parse_append all new
  rw [← h.buf] at hparse
  have hlen : (s.mail.buf ++ new).length ≤ 65536 := by
    have := length_parse_le all
    rw [List.length_append] at hsize ⊢
    rw [h.buf]
    omega
  have hdata : s.mail.onData (decodeUtf8 chunk) =
      Mail.drain (s.mail.buf ++ new).length { s.mail with buf := s.mail.buf ++ new } := by
    have hunits : (decodeUtf8 chunk).map (fun u => (⟨u, s.mail.link⟩ : Received)) = new := by rw [h.link, hnew]
    rw [Mail.onData, hunits]
    exact if_neg (not_lt.2 hlen)
  show Follows link n (all ++ new) (MailReader.take { s with mail := s.mail.onData (decodeUtf8 chunk) })
  rw [hdata]
  cases hw : s.mail.waiting with
  | false =>
    rw [drain_of_idle (m := { s.mail with buf := s.mail.buf ++ new }) le_rfl hw]
    rw [take_of_none (by exact h.inbox)]
    refine ⟨(congrArg Prod.snd hparse).symm, ?_, h.inbox, fun hw' => ?_, fun _ => h.idle hw, h.link⟩
    · rw [hparse, ← h.given]
      exact (List.append_assoc _ _ _).symm
    · rw [show s.mail.waiting = true from hw'] at hw
      cases hw
  | true =>
    obtain ⟨hnil, hn⟩ := h.waiting hw
    have hgiven := h.given
    rw [hnil, List.append_nil] at hgiven
    rcases drain_of_waiting (m := { s.mail with buf := s.mail.buf ++ new }) le_rfl hw with
      ⟨hnone, hdrain⟩ | ⟨r, rs, hsome, hdrain⟩
    · rw [hdrain]
      dsimp only at hnone
      rw [take_of_none (by exact h.inbox)]
      refine ⟨(congrArg Prod.snd hparse).symm, ?_, h.inbox, fun _ => ⟨hnil, hn⟩, fun hw' => ?_, h.link⟩
      · rw [hparse, hnone, List.append_nil, ← hgiven]
        exact (congrArg (s.handed ++ ·) hnil).trans (List.append_nil _)
      · rw [show s.mail.waiting = false from hw'] at hw
        cases hw
    · rw [hdrain]
      dsimp only at hsome
      refine ⟨(congrArg Prod.snd hparse).symm, ?_, rfl, fun hw' => (by cases hw'), fun _ => ?_, h.link⟩
      · show s.handed ++ [r] ++ (s.mail.replies ++ rs) = _
        rw [hparse, hsome, hnil, ← hgiven, List.nil_append, List.append_assoc]
        rfl
      · show n = (s.handed ++ [r]).length
        rw [List.length_append, hn]
        rfl

/-- What came over a link. -/
def receivedOf (link : MailLink) (bs : List UInt8) : List Received := bs.map fun b => ⟨b.toUInt16, link⟩

theorem Follows.run (h : Follows link n all s) {ops : List Op} (hascii : ∀ b ∈ stream ops, b.toNat < 0x80)
    (hsize : (all ++ receivedOf link (stream ops)).length ≤ 65536) (hone : Runs.Meets step oneAtATime s ops) :
    Follows link (n + reads ops) (all ++ receivedOf link (stream ops)) (Runs.run step s ops) := by
  induction ops generalizing s n all with
  | nil =>
    rw [show receivedOf link (stream []) = [] from rfl, List.append_nil]
    exact h
  | cons x ops ih =>
    have hsplit : receivedOf link (stream (x :: ops)) = receivedOf link x.bytes ++ receivedOf link (stream ops) := by
      rw [stream, List.flatMap_cons, receivedOf, List.map_append]
      rfl
    have hrest : ∀ b ∈ stream ops, b.toNat < 0x80 := fun b hb => hascii b (List.mem_append_right _ hb)
    rw [hsplit, ← List.append_assoc] at hsize ⊢
    cases x with
    | data chunk =>
      have hchunk := (@decodeUtf8_ascii chunk fun b hb => hascii b (List.mem_append_left _ hb)).2
      have hnew : (decodeUtf8 chunk).map (fun u => (⟨u, link⟩ : Received)) = receivedOf link chunk := by
        rw [hchunk, List.map_map]
        rfl
      have hfits : (all ++ receivedOf link chunk).length ≤ 65536 := by
        rw [List.length_append] at hsize
        exact (Nat.le_add_right _ _).trans hsize
      have hreads : reads (.data chunk :: ops) = reads ops := List.countP_cons_of_neg Bool.false_ne_true
      rw [hreads]
      exact ih (h.data hnew hfits) hrest hsize hone.2
    | read =>
      have hnone : all ++ receivedOf link (Op.bytes .read) = all := List.append_nil all
      have hreads : reads (.read :: ops) = reads ops + 1 := List.countP_cons_of_pos rfl
      rw [hnone] at hsize ⊢
      rw [hreads, ← Nat.add_assoc, Nat.add_right_comm]
      exact ih (h.read hone.1) hrest hsize hone.2

/-- **Replies.**  For every stream of at most 64 KiB of ASCII, in any chunks, with replies asked for at any moments, one
at a time: those handed out so far are the first replies of the whole stream, as many as were asked for. -/
theorem handed_in_order (o : MailOptions) (link : MailLink) (ops : List Op)
    (hascii : ∀ b ∈ stream ops, b.toNat < 0x80) (hsize : (stream ops).length ≤ 65536)
    (hone : Runs.Meets step oneAtATime (start o link) ops) :
    (Runs.run step (start o link) ops).handed.map (fun r => (r.code, r.lines)) =
      (repliesOf ((stream ops).map UInt8.toUInt16)).take (reads ops) := by
  have hnone : replyCutter.cut [] = none := rfl
  have hstart : Follows link 0 [] (start o link) := by
    refine ⟨?_, ?_, rfl, fun hw => (by cases hw), fun _ => rfl, rfl⟩ <;> rw [replyCutter.parse_of_none hnone] <;> rfl
  have hall : (receivedOf link (stream ops)).length ≤ 65536 := by
    rw [receivedOf, List.length_map]
    exact hsize
  have hend := hstart.run hascii (by rwa [List.nil_append]) hone
  have hunits : unitsOf (receivedOf link (stream ops)) = (stream ops).map UInt8.toUInt16 := by
    rw [receivedOf, unitsOf, List.map_map]
    rfl
  rw [hend.handed, List.map_take, parse_eq_repliesOf, List.nil_append, hunits, Nat.zero_add]

private def said (s : String) : Op := .data ((js s).map fun u => u.toUInt8)

/-- A greeting that comes before it is asked for, and a reply of two lines that is asked for before it is complete and
comes split inside a code and inside a line break. -/
def exchange : List Op := [said "220 hi\r\n2", .read, .read, said "50-a\r", said "\n250 b\r\n"]

private def options : MailOptions := ⟨js "mail", .tls, [], [], js "a@example.com", [js "b@example.com"], js "nas", js "hi"⟩

theorem handed_in_order_exchange : (Runs.run step (start options .tls) exchange).handed.map
    (fun r => (r.code, r.lines)) = (repliesOf ((stream exchange).map UInt8.toUInt16)).take (reads exchange) := by
  have hall : (stream exchange).all (fun b => decide (b.toNat < 0x80)) = true := by decide +kernel
  exact handed_in_order options .tls exchange (fun b hb => of_decide_eq_true (List.all_eq_true.1 hall b hb))
    (by decide +kernel) (by decide +kernel)

example : repliesOf ((stream exchange).map UInt8.toUInt16) =
    [(220, [js "hi"]), (250, [js "a", js "b"])] := by decide +kernel

end MailReader

end Servitals
