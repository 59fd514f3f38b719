import Servitals.EnvFile
import Servitals.Processes

/-!
# The disks of a host

`mount_infos`, `auto_disks` and what `disks_json` of `agent/lib/disks.sh` makes of them.  The kernel writes a line for
each mount, with its paths escaped; a mount point can be on several lines, and the last is the mount that a path reaches.

A path may have any characters.  What the agent shows of a mount point is the mount on top of it (`disk_top`), unless
`stat` says nothing of it in time; the source of a mount comes apart where it has a blank, since `read` splits the line
again.

A text is a list of bytes, each as a code unit.
-/

namespace Servitals

namespace Mounts

open EnvFile (textLines unlines isShellSpace)
open Entries (last last_cons last_append last_eq_none)

/-- A blank of awk and of `read`. -/
def isBlank (u : UInt16) : Bool := u == 0x20 || u == 0x09 || u == 0x0a

/-- A word of the kernel's: not empty, without blanks. -/
abbrev Word := { w : JsString // w ≠ [] ∧ w.any isBlank = false }

/-- A mount, as far as a line of `mountinfo` tells of it: the kernel writes some source for each, and a dash after the
optional fields only. -/
structure Mount where
  id : ℕ
  parent : ℕ
  major : ℕ
  minor : ℕ
  root : JsString
  mountPoint : JsString
  options : Word
  optional : List Word
  fsType : Word
  source : JsString
  superOptions : Word
  root_ne : root ≠ []
  mountPoint_ne : mountPoint ≠ []
  source_ne : source ≠ []
  optional_ne : ∀ w ∈ optional, w.1 ≠ js "-"

/-! ### The kernel's lines -/

def octalDigit (n : ℕ) : UInt16 := .ofNat (0x30 + n)

/-- `\ooo` -/
def octal (u : UInt16) : JsString :=
  [0x5c, octalDigit (u.toNat / 64), octalDigit (u.toNat / 8 % 8), octalDigit (u.toNat % 8)]

def PATH_SPECIAL : List UInt16 := [0x20, 0x09, 0x0a, 0x5c]

def SOURCE_SPECIAL : List UInt16 := [0x20, 0x09, 0x0a, 0x5c, 0x23]

/-- A text with its special characters escaped. -/
def mangle (special : List UInt16) (s : JsString) : JsString := s.flatMap fun u => if u ∈ special then octal u else [u]

namespace Mount

def device (t : Mount) : JsString := count t.major ++ 0x3a :: count t.minor

def words (t : Mount) : List JsString :=
  [count t.id, count t.parent, t.device, mangle PATH_SPECIAL t.root, mangle PATH_SPECIAL t.mountPoint, t.options.1] ++
    (t.optional.map Subtype.val ++ [js "-", t.fsType.1, mangle SOURCE_SPECIAL t.source, t.superOptions.1])

def line (t : Mount) : JsString := [0x20].intercalate t.words

end Mount

/-- `/^[0-7][0-7][0-7]$/` -/
def isOctal (s : JsString) : Bool := s.length == 3 && s.all (unitIn '0' '7')

/-- The number of three octal digits. -/
def octalValue (s : JsString) : ℕ := s.foldl (fun n u => 8 * n + (u.toNat - 0x30)) 0

private theorem awkIndex_nil : awkIndex [0x5c] [] = 0 := rfl

/-- `unesc`, after `o`. -/
def unescFrom (o s : JsString) : JsString :=
  if h : 0 < awkIndex [0x5c] s ∧ isOctal (substr s (awkIndex [0x5c] s + 1) 3) = true then
    unescFrom (o ++ substr s 1 (awkIndex [0x5c] s - 1) ++ [.ofNat (octalValue (substr s (awkIndex [0x5c] s + 1) 3))])
      (substrFrom s (awkIndex [0x5c] s + 4))
  else o ++ s
termination_by s.length
decreasing_by
  have hne : 0 < s.length := by
    rcases Nat.eq_zero_or_pos s.length with hzero | hpos
    · rw [List.length_eq_zero_iff.1 hzero, awkIndex_nil] at h
      omega
    · exact hpos
  rw [substrFrom, List.length_drop]
  omega

/-- `unesc` -/
def unesc (s : JsString) : JsString := unescFrom [] s

/-- What comes after the first field that is a dash. -/
def dashTail : List JsString → Option (List JsString)
  | [] => none
  | f :: fs => if f = js "-" then some fs else dashTail fs

/-- `$i` of a record. -/
def field (fs : List JsString) (i : ℕ) : JsString := fs.getD (i - 1) []

/-- `$(i+1) " " unesc($(i+2)) " " $3`, with the first dash from the seventh field on. -/
def infoOf (fs : List JsString) : Option JsString :=
  (dashTail (fs.drop 6)).map fun r => field r 1 ++ 0x20 :: (unesc (field r 2) ++ 0x20 :: field fs 3)

/-- The variables of `read -r` with these blanks: the last takes the rest. -/
def readFields (blank : UInt16 → Bool) : ℕ → JsString → List JsString
  | 0, _ => []
  | 1, s => [((s.dropWhile blank).reverse.dropWhile blank).reverse]
  | n + 2, s => (s.dropWhile blank).takeWhile (fun u => !blank u) ::
      readFields blank (n + 1) ((s.dropWhile blank).dropWhile fun u => !blank u)

/-- What is shown of a disk that is mounted. -/
structure Disk where
  fsType : JsString
  source : JsString
  device : JsString
  deriving DecidableEq

/-- What becomes of an entry of the list: `mounted: false`, nothing, or a disk. -/
inductive DiskRow
  | unmounted | leftOut | shown (d : Disk)
  deriving DecidableEq

/-- Where the host's files are, and how many blocks `stat -f` says that a file system has, 0 when it says nothing in
time. -/
structure DiskHost where
  root : JsString
  blocks : JsString → ℕ

/-- `p` -/
def DiskHost.path (h : DiskHost) (m : JsString) : JsString := if m = js "/" then h.root else h.root ++ m

/-- The rounds of the loop of `disks_json`: `read -r fstype src majmin <<< "$info"`, and then `stat`. -/
def disk (h : DiskHost) (infos : OMap JsString JsString) (m : JsString) : DiskRow :=
  let info := (infos.get? m).getD []
  if info = [] then .unmounted
  else
    let r := readFields isBlank 3 (info.takeWhile (· ≠ 0x0a))
    if h.blocks (h.path m) = 0 then .leftOut
    else .shown ⟨field r 1, if field r 2 = [] then js "?" else field r 2, field r 3⟩

/-- An entry of the list without blanks around it; a tab would split the row. -/
def tidy (m : JsString) : JsString :=
  (((m.dropWhile isShellSpace).reverse.dropWhile isShellSpace).reverse).map fun u => if u = 0x09 then 0x20 else u

/-- What awk makes of the text of `-v`: a text without backslashes it takes as it is. -/
structure Assign where
  assign : JsString → JsString
  plain : ∀ s, 0x5c ∉ s → assign s = s

/-- `want` -/
def wanted (a : Assign) (ms : List JsString) : List JsString := split 0x0a (a.assign ([0x0a].intercalate ms))

/-! ### Escapes -/

private theorem isBlank_octal {u : UInt16} (h : u.toNat < 512) :
    (octal u).any isBlank = false ∧ 0x5c ∉ (octal u).tail := by
  have hdigit : ∀ n < 8, isBlank (octalDigit n) = false ∧ 0x5c ≠ octalDigit n := by decide
  have h1 := hdigit (u.toNat / 64) (by omega)
  have h2 := hdigit (u.toNat / 8 % 8) (by omega)
  have h3 := hdigit (u.toNat % 8) (by omega)
  have h0 : isBlank 0x5c = false := by decide
  refine ⟨?_, ?_⟩
  · simp [octal, h0, h1.1, h2.1, h3.1]
  · simp [octal, h1.2, h2.2, h3.2]

private theorem notMem_of_any_isBlank {u : UInt16} (hu : isBlank u = true) {w : JsString}
    (hw : w.any isBlank = false) : u ∉ w :=
  fun h => List.any_eq_false.1 hw u h hu

private theorem isBlank_cases {u : UInt16} (h : isBlank u = true) : u = 0x20 ∨ u = 0x09 ∨ u = 0x0a := by
  simpa [isBlank, or_assoc] using h

/-- An escaped text has no blanks. -/
private theorem mangle_word {special : List UInt16} (hblank : ∀ u, isBlank u = true → u ∈ special)
    (hsmall : ∀ u ∈ special, u.toNat < 512) {s : JsString} (hne : s ≠ []) :
    mangle special s ≠ [] ∧ (mangle special s).any isBlank = false := by
  refine ⟨fun h => ?_, ?_⟩
  · obtain ⟨u, s, rfl⟩ := List.exists_cons_of_ne_nil hne
    have hu := List.flatMap_eq_nil_iff.1 h u List.mem_cons_self
    split at hu
    · exact absurd hu (List.cons_ne_nil _ _)
    · exact absurd hu (List.cons_ne_nil _ _)
  · rw [List.any_eq_false]
    intro v hv
    obtain ⟨u, -, hv⟩ := List.mem_flatMap.1 hv
    split at hv
    · rename_i hu
      exact List.any_eq_false.1 (isBlank_octal (hsmall u hu)).1 v hv
    · rename_i hu
      rw [List.mem_singleton.1 hv]
      exact fun hb => hu (hblank u hb)

private theorem count_word (n : ℕ) : count n ≠ [] ∧ (count n).any isBlank = false := by
  obtain ⟨hne, hall⟩ := isWord_count n
  refine ⟨hne, List.any_eq_false.2 fun u hu hb => ?_⟩
  obtain ⟨h1, h2, h3, -⟩ := hall u hu
  rcases isBlank_cases hb with h | h | h
  · exact h1 h
  · exact h2 h
  · exact h3 h

private theorem device_word (t : Mount) : t.device ≠ [] ∧ t.device.any isBlank = false := by
  have hcolon : isBlank 0x3a = false := by decide
  refine ⟨List.append_ne_nil_of_right_ne_nil _ (List.cons_ne_nil _ _), ?_⟩
  rw [Mount.device, List.any_append, (count_word t.major).2, List.any_cons, hcolon, (count_word t.minor).2]
  rfl

private theorem special_spec : (∀ u, isBlank u = true → u ∈ PATH_SPECIAL) ∧ (∀ u ∈ PATH_SPECIAL, u.toNat < 512) ∧
    (∀ u, isBlank u = true → u ∈ SOURCE_SPECIAL) ∧ ∀ u ∈ SOURCE_SPECIAL, u.toNat < 512 := by
  have hsmall : (∀ n ∈ PATH_SPECIAL.map UInt16.toNat, n < 512) ∧ ∀ n ∈ SOURCE_SPECIAL.map UInt16.toNat, n < 512 := by decide
  refine ⟨fun u hu => ?_, fun u hu => hsmall.1 _ (List.mem_map_of_mem hu), fun u hu => ?_,
    fun u hu => hsmall.2 _ (List.mem_map_of_mem hu)⟩
  · rcases isBlank_cases hu with rfl | rfl | rfl <;> decide
  · rcases isBlank_cases hu with rfl | rfl | rfl <;> decide

/-- A line is made of words. -/
private theorem words_spec (t : Mount) : ∀ w ∈ t.words, w ≠ [] ∧ w.any isBlank = false := by
  obtain ⟨hpath, hpaths, hsource, hsources⟩ := special_spec
  have hdash : js "-" ≠ [] ∧ (js "-").any isBlank = false := by decide +kernel
  intro w hw
  rw [Mount.words, List.mem_append, List.mem_append] at hw
  rcases hw with hw | hw | hw
  · simp only [List.mem_cons, List.not_mem_nil, or_false] at hw
    rcases hw with rfl | rfl | rfl | rfl | rfl | rfl
    · exact count_word t.id
    · exact count_word t.parent
    · exact device_word t
    · exact mangle_word hpath hpaths t.root_ne
    · exact mangle_word hpath hpaths t.mountPoint_ne
    · exact t.options.2
  · obtain ⟨x, -, rfl⟩ := List.mem_map.1 hw
    exact x.2
  · simp only [List.mem_cons, List.not_mem_nil, or_false] at hw
    rcases hw with rfl | rfl | rfl | rfl
    · exact hdash
    · exact t.fsType.2
    · exact mangle_word hsource hsources t.source_ne
    · exact t.superOptions.2

theorem notMem_line (t : Mount) : 0x0a ∉ t.line := by
  intro h
  rcases mem_intercalate h with h | ⟨w, hw, h⟩
  · exact absurd h (by decide)
  · exact notMem_of_any_isBlank (by decide) (words_spec t w hw).2 h

/-- What awk keeps of a mount. -/
def Mount.info (t : Mount) : JsString := t.fsType.1 ++ 0x20 :: (t.source ++ 0x20 :: t.device)

end Mounts

end Servitals
