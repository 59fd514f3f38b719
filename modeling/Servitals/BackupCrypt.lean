import Servitals.Utf8
import Servitals.Lib.Aead

/-!
# Encrypted backups

`hub/lib/backupcrypt.js`: a file is a mark, a salt, a nonce, a tag and what AES-256-GCM made of the backup.  A file that
decrypts is one that was encrypted, byte for byte (`decrypt_iff`); of the two processes that `servitals-ctl` runs, the
second gives back what the first was given, unless the file has become too big for it (`main_decrypt_encrypt`).

The key derivation is a parameter, and so are the key stream and the tag of the cipher.
-/

namespace Servitals

/-- Some bytes of a known number. -/
abbrev Octets (n : ℕ) := { bs : List UInt8 // bs.length = n }

/-- `scryptSync`, and AES-256-GCM with nonces of 12 bytes and tags of 16. -/
structure BackupCipher (κ : Type*) where
  scrypt : JsString → List UInt8 → κ
  gcm : Aead κ (List UInt8) (Octets 16)

namespace BackupCipher

variable {κ : Type*} (c : BackupCipher κ)

def MAGIC : List UInt8 := encodeUtf8 (js "SVBK1\n")

def MAX : ℕ := 2 * 1024 * 1024 * 1024 - 1

/-- `encrypt`, with the salt and the nonce that it draws. -/
def encrypt (salt : Octets 16) (nonce : Octets 12) (plain : List UInt8) (pass : JsString) : List UInt8 :=
  let (data, tag) := c.gcm.lock (c.scrypt pass salt.1) nonce.1 plain
  MAGIC ++ salt.1 ++ nonce.1 ++ tag.1 ++ data

/-- `file.subarray(o, o + n)` -/
def slice (file : List UInt8) (o n : ℕ) : List UInt8 := (file.drop o).take n

/-- `decrypt`, none when it throws. -/
def decrypt (file : List UInt8) (pass : JsString) : Option (List UInt8) :=
  if _h : file.length < MAGIC.length + 44 then none
  else if slice file 0 MAGIC.length ≠ MAGIC then none
  else
    let o := MAGIC.length
    let salt := slice file o 16
    let nonce := slice file (o + 16) 12
    let tag : Octets 16 := ⟨slice file (o + 28) 16, by
      rw [slice, List.length_take, List.length_drop]
      omega⟩
    c.gcm.unlock (c.scrypt pass salt) nonce (file.drop (o + 44)) tag

/-- What the process is asked for on its command line. -/
inductive Mode
  | encrypt (salt : Octets 16) (nonce : Octets 12)
  | decrypt

/-- `main`: the exit status and what it writes. -/
def main (mode : Mode) (pass : JsString) (stdin : List UInt8) : ℕ × List UInt8 :=
  if pass = [] then (64, [])
  else if MAX < stdin.length then (2, [])
  else match mode with
    | .encrypt salt nonce => (0, c.encrypt salt nonce stdin pass)
    | .decrypt => match c.decrypt stdin pass with
      | some plain => (0, plain)
      | none => (2, [])

/-! ### Round trip -/

private theorem length_magic : MAGIC.length = 6 := by decide

/-- The part of a file behind parts of known lengths. -/
private theorem slice_append {a b d : List UInt8} {o n : ℕ} (ha : a.length = o) (hb : b.length = n) :
    slice (a ++ (b ++ d)) o n = b := by
  rw [slice, List.drop_left' ha, List.take_left' hb]

/-- The length of an encrypted file. -/
private theorem length_encrypt (salt : Octets 16) (nonce : Octets 12) (plain : List UInt8) (pass : JsString) :
    (c.encrypt salt nonce plain pass).length = 50 + plain.length := by
  have htag := (c.gcm.lock (c.scrypt pass salt.1) nonce.1 plain).2.2
  have hdata : (c.gcm.lock (c.scrypt pass salt.1) nonce.1 plain).1.length = plain.length := c.gcm.length_flip _ _ _
  simp only [encrypt, List.length_append, length_magic, salt.2, nonce.2, htag, hdata]

/-- A file is its parts. -/
private theorem eq_parts (file : List UInt8) : file =
    slice file 0 MAGIC.length ++ (slice file MAGIC.length 16 ++ (slice file (MAGIC.length + 16) 12 ++
      (slice file (MAGIC.length + 28) 16 ++ file.drop (MAGIC.length + 44)))) := by
  have hcut : ∀ o n, slice file o n ++ file.drop (o + n) = file.drop o := by
    intro o n
    rw [slice, ← List.drop_drop, List.take_append_drop]
  have h1 := hcut 0 MAGIC.length
  have h2 := hcut MAGIC.length 16
  have h3 := hcut (MAGIC.length + 16) 12
  have h4 := hcut (MAGIC.length + 28) 16
  rw [Nat.zero_add] at h1
  rw [h4, h3, h2, h1]
  rfl

/-- What `decrypt` makes of the parts. -/
private theorem decrypt_parts (salt : Octets 16) (nonce : Octets 12) (tag : Octets 16) (data : List UInt8)
    (pass : JsString) :
    c.decrypt (MAGIC ++ (salt.1 ++ (nonce.1 ++ (tag.1 ++ data)))) pass =
      c.gcm.unlock (c.scrypt pass salt.1) nonce.1 data tag := by
  generalize hfile : MAGIC ++ (salt.1 ++ (nonce.1 ++ (tag.1 ++ data))) = file
  have hmagic : slice file 0 MAGIC.length = MAGIC := by
    rw [← hfile]
    exact @slice_append [] MAGIC _ 0 _ rfl rfl
  have hsalt : slice file MAGIC.length 16 = salt.1 := by
    rw [← hfile]
    exact slice_append rfl salt.2
  have hnonce : slice file (MAGIC.length + 16) 12 = nonce.1 := by
    rw [← hfile, ← List.append_assoc]
    exact slice_append (by rw [List.length_append, salt.2]) nonce.2
  have htag : slice file (MAGIC.length + 28) 16 = tag.1 := by
    rw [← hfile, ← List.append_assoc, ← List.append_assoc]
    exact slice_append (by rw [List.length_append, List.length_append, salt.2, nonce.2]) tag.2
  have hdata : file.drop (MAGIC.length + 44) = data := by
    rw [← hfile, ← List.append_assoc, ← List.append_assoc, ← List.append_assoc]
    exact List.drop_left' (by rw [List.length_append, List.length_append, List.length_append, salt.2, nonce.2, tag.2])
  have hlen : ¬ file.length < MAGIC.length + 44 := by
    rw [← hfile]
    simp only [List.length_append, salt.2, nonce.2, tag.2]
    omega
  rw [decrypt, dif_neg hlen, if_neg (not_not_intro hmagic)]
  simp only [hsalt, hnonce, htag, hdata]

/-- A file decrypts exactly when it was encrypted with this passphrase, byte for byte. -/
theorem decrypt_iff {file plain : List UInt8} {pass : JsString} :
    c.decrypt file pass = some plain ↔ ∃ salt nonce, file = c.encrypt salt nonce plain pass := by
  constructor
  · intro h
    by_cases hshort : file.length < MAGIC.length + 44
    · rw [decrypt, dif_pos hshort] at h
      cases h
    by_cases hmagic : slice file 0 MAGIC.length = MAGIC
    · have hslice : ∀ o n, o + n ≤ MAGIC.length + 44 → (slice file o n).length = n := by
        intro o n hle
        rw [slice, List.length_take, List.length_drop]
        omega
      obtain ⟨salt, hsalt⟩ : ∃ salt : Octets 16, salt.1 = slice file MAGIC.length 16 :=
        ⟨⟨_, hslice _ _ (by omega)⟩, rfl⟩
      obtain ⟨nonce, hnonce⟩ : ∃ nonce : Octets 12, nonce.1 = slice file (MAGIC.length + 16) 12 :=
        ⟨⟨_, hslice _ _ (by omega)⟩, rfl⟩
      obtain ⟨tag, htag⟩ : ∃ tag : Octets 16, tag.1 = slice file (MAGIC.length + 28) 16 :=
        ⟨⟨_, hslice _ _ (by omega)⟩, rfl⟩
      have hparts := eq_parts file
      rw [hmagic, ← hsalt, ← hnonce, ← htag] at hparts
      rw [hparts, decrypt_parts, c.gcm.unlock_iff] at h
      refine ⟨salt, nonce, ?_⟩
      rw [hparts, encrypt, h]
      simp
    · rw [decrypt, dif_neg hshort, if_pos hmagic] at h
      cases h
  · rintro ⟨salt, nonce, rfl⟩
    have hparts : c.encrypt salt nonce plain pass = MAGIC ++ (salt.1 ++ (nonce.1 ++
        ((c.gcm.lock (c.scrypt pass salt.1) nonce.1 plain).2.1 ++
          (c.gcm.lock (c.scrypt pass salt.1) nonce.1 plain).1))) := by
      simp [encrypt]
    rw [hparts, decrypt_parts, c.gcm.unlock_lock]

/-- A process that decrypts writes a backup when the whole file fits and is one that was encrypted. -/
private theorem main_decrypt_iff {file plain : List UInt8} {pass : JsString} (hpass : pass ≠ []) :
    c.main .decrypt pass file = (0, plain) ↔ file.length ≤ MAX ∧ ∃ salt nonce, file = c.encrypt salt nonce plain pass := by
  rw [← decrypt_iff, main, if_neg hpass]
  by_cases hsize : file.length ≤ MAX
  · rw [if_neg (by omega)]
    cases c.decrypt file pass with
    | none => simp
    | some plain' => simp [hsize]
  · rw [if_pos (by omega)]
    simp [hsize]

/-- When it writes no backup, it writes nothing. -/
private theorem main_decrypt_refused {file : List UInt8} {pass : JsString} (hpass : pass ≠ [])
    (h : ∀ plain, c.main .decrypt pass file ≠ (0, plain)) : c.main .decrypt pass file = (2, []) := by
  unfold main at h ⊢
  rw [if_neg hpass] at h ⊢
  split
  · rfl
  · rename_i hsize
    rw [if_neg hsize] at h
    cases hd : c.decrypt file pass with
    | none => rfl
    | some plain =>
      rw [hd] at h
      exact absurd rfl (h plain)

/-- What one process encrypted, another one gives back, as long as the file is not too big for it: fifty bytes more than
the backup. -/
theorem main_decrypt_encrypt {plain : List UInt8} {pass : JsString} (hpass : pass ≠ []) (hsize : plain.length ≤ MAX)
    (salt : Octets 16) (nonce : Octets 12) :
    c.main .decrypt pass (c.main (.encrypt salt nonce) pass plain).2 = (0, plain) ↔ plain.length + 50 ≤ MAX := by
  have henc : (c.main (.encrypt salt nonce) pass plain).2 = c.encrypt salt nonce plain pass := by
    rw [main, if_neg hpass, if_neg (by omega)]
  have hlen := c.length_encrypt salt nonce plain pass
  rw [henc]
  by_cases hfits : plain.length + 50 ≤ MAX
  · have hround : c.main .decrypt pass (c.encrypt salt nonce plain pass) = (0, plain) :=
      (c.main_decrypt_iff hpass).2 ⟨by omega, salt, nonce, rfl⟩
    exact iff_of_true hround hfits
  · refine iff_of_false (fun h => ?_) hfits
    rw [main, if_neg hpass, if_pos (by omega)] at h
    exact absurd (congrArg Prod.fst h) (show (2 : ℕ) ≠ 0 by decide)

/-- The two processes: one that decrypts writes a backup exactly for the files that fit one buffer and were encrypted with
the passphrase, and nothing for others; and it gives back what the other was given exactly when the file is not too big
for it. -/
theorem main_round_trip {pass : JsString} (hpass : pass ≠ []) :
    (∀ file : List UInt8,
      (∀ plain, c.main .decrypt pass file = (0, plain) ↔
        file.length ≤ MAX ∧ ∃ salt nonce, file = c.encrypt salt nonce plain pass) ∧
      ((∀ plain salt nonce, file.length ≤ MAX → file ≠ c.encrypt salt nonce plain pass) →
        c.main .decrypt pass file = (2, []))) ∧
    ∀ (plain : List UInt8) (salt : Octets 16) (nonce : Octets 12), plain.length ≤ MAX →
      (c.main .decrypt pass (c.main (.encrypt salt nonce) pass plain).2 = (0, plain) ↔ plain.length + 50 ≤ MAX) := by
  refine ⟨fun file => ⟨fun plain => c.main_decrypt_iff hpass, fun hother => ?_⟩,
    fun _ salt nonce hsize => c.main_decrypt_encrypt hpass hsize salt nonce⟩
  refine c.main_decrypt_refused hpass fun plain h => ?_
  obtain ⟨hsize, salt, nonce, hfile⟩ := (c.main_decrypt_iff hpass).1 h
  exact hother plain salt nonce hsize hfile

/-- A cipher whose stream and tag are zeros. -/
def plainCipher : BackupCipher Unit := ⟨fun _ _ => (), ⟨fun _ _ _ => 0, fun _ _ _ => ⟨List.replicate 16 0, rfl⟩⟩⟩

theorem plain_round_trip :
    (plainCipher.main .decrypt (js "p") (plainCipher.main (.encrypt ⟨List.replicate 16 1, rfl⟩ ⟨List.replicate 12 2, rfl⟩)
      (js "p") [3, 4]).2 = (0, [3, 4])) ∧ plainCipher.main .decrypt (js "p") [1, 2, 3] = (2, []) := by
  obtain ⟨hfiles, hround⟩ := plainCipher.main_round_trip (show js "p" ≠ [] by decide)
  refine ⟨(hround [3, 4] _ _ (by decide)).2 (by decide), (hfiles [1, 2, 3]).2 fun plain salt nonce _ hfile => ?_⟩
  have hlen := congrArg List.length hfile
  rw [length_encrypt] at hlen
  simp only [List.length_cons, List.length_nil] at hlen
  omega

end BackupCipher

end Servitals
