import Mathlib

/-!
# Authenticated encryption

A cipher that flips the bytes of a text by a key stream and authenticates what comes out, as GCM does.  The stream and the
tag are parameters.  What is opened is what was locked (`unlock_iff`): every text that opens was locked under this key and
nonce, byte for byte.
-/

/-- The stream of a key and a nonce, byte by byte, and the tag of a locked text. -/
structure Aead (κ ν τ : Type*) where
  stream : κ → ν → ℕ → UInt8
  tag : κ → ν → List UInt8 → τ

namespace Aead

variable {κ ν τ : Type*} (c : Aead κ ν τ)

/-- The bytes, flipped by the stream. -/
def flip (k : κ) (n : ν) (bs : List UInt8) : List UInt8 := bs.mapIdx fun i b => b ^^^ c.stream k n i

@[simp]
theorem length_flip (k : κ) (n : ν) (bs : List UInt8) : (c.flip k n bs).length = bs.length := by
  simp [flip]

@[simp]
theorem flip_flip (k : κ) (n : ν) (bs : List UInt8) : c.flip k n (c.flip k n bs) = bs := by
  apply List.ext_getElem
  · simp
  · intro i hi hi'
    simp [flip]

def lock (k : κ) (n : ν) (plain : List UInt8) : List UInt8 × τ := (c.flip k n plain, c.tag k n (c.flip k n plain))

variable [DecidableEq τ]

/-- The text, if the tag is its own. -/
def unlock (k : κ) (n : ν) (data : List UInt8) (tag : τ) : Option (List UInt8) :=
  if c.tag k n data = tag then some (c.flip k n data) else none

theorem unlock_iff {k : κ} {n : ν} {data plain : List UInt8} {tag : τ} :
    c.unlock k n data tag = some plain ↔ c.lock k n plain = (data, tag) := by
  rw [unlock, lock, Prod.mk.injEq]
  constructor
  · intro h
    by_cases htag : c.tag k n data = tag
    · rw [if_pos htag, Option.some.injEq] at h
      subst h
      exact ⟨c.flip_flip k n data, by rw [c.flip_flip, htag]⟩
    · rw [if_neg htag] at h
      cases h
  · rintro ⟨rfl, rfl⟩
    rw [if_pos rfl, c.flip_flip]

/-- What is locked opens again. -/
theorem unlock_lock (k : κ) (n : ν) (plain : List UInt8) :
    c.unlock k n (c.lock k n plain).1 (c.lock k n plain).2 = some plain := c.unlock_iff.2 rfl

end Aead
