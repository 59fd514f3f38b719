import Servitals.AgentSig
import Servitals.Lib.OMap

/-!
# The node store

`hub/lib/nodes.js`: the nodes as `nodes.json` keeps them, and the store that changes them.  The store keeps the
records it read in memory and changes them in place; a caller of `get` holds a reference to one.  So the records are
on a heap, and the table gives each id its address; a record that is read again from the file is a new one.

A record carries what the store keeps of it: a revoked node has no secret, any other has secrets of 64 digits.  The
records of a file that parses were written by a store, so they are sound.
-/

namespace Servitals

/-- A secret: 64 hexadecimal digits. -/
abbrev Secret := { s : JsString // isHex64 s = true }

/-- A node as `nodes.json` keeps it. -/
structure NodeRec where
  name : JsString
  secret : JsString
  isLocal : Bool
  created : ℤ
  tags : Option (List JsString)
  revoked : Bool
  oldSecret : Option JsString
  oldUntil : Option ℤ
  sound : if revoked then secret = [] ∧ oldSecret = none else isHex64 secret = true ∧ ∀ s ∈ oldSecret, isHex64 s = true

namespace NodeRec

/-- The record of a new node. -/
def fresh (name : JsString) (secret : Secret) (isLocal : Bool) (t : ℤ) (tags : Option (List JsString)) : NodeRec where
  name := name
  secret := secret.1
  isLocal := isLocal
  created := t
  tags := tags
  revoked := false
  oldSecret := none
  oldUntil := none
  sound := ⟨secret.2, by simp⟩

/-- `n.revoked = true; n.secret = ""; delete n.oldSecret; delete n.oldUntil` -/
def revoke (n : NodeRec) : NodeRec :=
  { n with revoked := true, secret := [], oldSecret := none, oldUntil := none, sound := ⟨rfl, rfl⟩ }

/-- `OVERLAP_MS`: how long the old secret works. -/
def OVERLAP_MS : ℤ := 24 * 3600000

/-- Is there an old secret whose time is not over? -/
def overlaps (n : NodeRec) (t : ℤ) : Bool := n.oldSecret.isSome && n.oldUntil.any fun u => decide (t < u)

/-- A new secret; the old one keeps working, or the one before it while its time is not over. -/
def rotate (n : NodeRec) (hn : n.revoked = false) (secret : Secret) (t : ℤ) : NodeRec :=
  { n with
    secret := secret.1
    oldSecret := if n.overlaps t then n.oldSecret else some n.secret
    oldUntil := if n.overlaps t then n.oldUntil else some (t + OVERLAP_MS)
    sound := by
      have hsound := n.sound
      rw [if_neg (by simp [hn])] at hsound
      rw [if_neg (by simp [hn])]
      refine ⟨secret.2, fun s hs => ?_⟩
      split at hs
      · exact hsound.2 s hs
      · rw [Option.mem_some_iff] at hs
        exact hs ▸ hsound.1 }

/-- The secrets of a record that is not revoked have 64 digits. -/
theorem isHex64_of_not_revoked {n : NodeRec} (h : n.revoked = false) :
    isHex64 n.secret = true ∧ ∀ s ∈ n.oldSecret, isHex64 s = true := by
  have hsound := n.sound
  rwa [if_neg (by simp [h])] at hsound

theorem eq_of_revoked {n : NodeRec} (h : n.revoked = true) : n.secret = [] ∧ n.oldSecret = none := by
  have hsound := n.sound
  rwa [if_pos h] at hsound

end NodeRec

/-! ### Names and tags -/

/-- `checkName`: the name without the white space around it. -/
def checkName (name : JsString) : Except JsString JsString :=
  let n := trim name
  if n.length != 0 && n.length ≤ 64 && n.all (fun u => 0x20 ≤ u && u != 0x7f) then .ok n
  else .error (js "name: 1-64 printable characters")

/-- `TAG`: `/^[a-z0-9][a-z0-9._-]{0,31}$/`. -/
def isTag (s : JsString) : Bool :=
  let start (u : UInt16) := unitIn 'a' 'z' u || unitIn '0' '9' u
  s.length ≤ 32 && s.head?.any start && s.all fun u => start u || u == 0x2e || u == 0x5f || u == 0x2d

/-- `check`: a name and tags that a node may have. -/
def checkNode (name : JsString) (tags : List JsString) : Except JsString JsString := do
  let clean ← checkName name
  match tags.find? fun t => !isTag t with
  | some t => .error (js "tag \"" ++ t ++ js "\": lowercase letters, digits, dot, dash, underscore")
  | none => .ok clean

/-! ### The store -/

/-- `nodes.json`, if it is there: its modification time, and the records unless it does not parse. -/
abbrev NodesFile := Option (ℕ × Option (OMap NodeId NodeRec))

/-- The store: the records in memory, and the file.  `unreadable`: the file is there and never parsed. -/
structure NodeStore where
  heap : List NodeRec
  table : OMap NodeId ℕ
  mtime : Option ℕ
  unreadable : Bool
  file : NodesFile

namespace NodeStore

/-- The store of a new process over the file. -/
def fromFile (file : NodesFile) : NodeStore := ⟨[], .empty, none, false, file⟩

/-- A record at a new address. -/
def alloc (s : NodeStore) (id : NodeId) (n : NodeRec) : NodeStore :=
  { s with heap := s.heap ++ [n], table := s.table.set id s.heap.length }

/-- `load`: the file is read again when it changed; all its records are then new ones.  One that does not parse leaves
the last good copy; with none, nothing may be written. -/
def load (s : NodeStore) : NodeStore :=
  match s.file with
  | none => { s with table := .empty, mtime := none, unreadable := false }
  | some (v, content) =>
    if s.mtime = some v then s
    else match content with
      | some nodes =>
        nodes.entries.foldl (fun s e => s.alloc e.1 e.2) { s with table := .empty, mtime := some v, unreadable := false }
      | none => if s.mtime = none then { s with unreadable := true } else s

/-- The records as they stand, by id. -/
def contents (s : NodeStore) : OMap NodeId NodeRec :=
  s.table.entries.foldl (fun m e => match s.heap[e.2]? with
    | some n => m.set e.1 n
    | none => m) .empty

/-- `save`; `written` says whether the file could be written. -/
def save (s : NodeStore) (written : Bool) : NodeStore :=
  if written then
    let v := (s.file.elim 0 Prod.fst) + 1
    { s with file := some (v, some s.contents), mtime := some v }
  else s

/-- The record with the id as the table has it. -/
def find (s : NodeStore) (id : NodeId) : Option NodeRec := (s.table.get? id).bind fun a => s.heap[a]?

/-- `get`: the address of the record of a node that is not revoked. -/
def get (s : NodeStore) (id : NodeId) : NodeStore × Option ℕ :=
  let s := s.load
  (s, if (s.find id).any fun n => !n.revoked then s.table.get? id else none)

/-- A node as `list` shows it. -/
structure Listed where
  id : NodeId
  name : JsString
  isLocal : Bool
  created : ℤ
  tags : List JsString
  deriving DecidableEq

/-- `list`: every node that is not revoked, without secrets. -/
def list (s : NodeStore) : NodeStore × List Listed :=
  let s := s.load
  (s, s.table.keys.filterMap fun id => ((s.find id).filter fun n => !n.revoked).map fun n =>
    ⟨id, n.name, n.isLocal, n.created, n.tags.getD []⟩)

/-- `localId`. -/
def localId (s : NodeStore) : Option NodeId :=
  s.table.keys.find? fun id => (s.find id).any fun n => n.isLocal && !n.revoked

/-- What a write that fails throws. -/
def writeError : JsString := js "EIO"

def unreadableError : JsString := js "nodes.json exists but does not parse; fix or remove it"

/-- `ensureLocal`, at the start of a process: the local node, added with the id and secret drawn when there is
none. -/
def ensureLocal (s : NodeStore) (name : JsString) (id : NodeId) (secret : Secret) (t : ℤ) (written : Bool) :
    NodeStore × Except JsString NodeId :=
  let s := s.load
  match s.localId with
  | some id => (s, .ok id)
  | none =>
    if s.unreadable then (s, .error unreadableError)
    else ((s.alloc id (.fresh name secret true t none)).save written, if written then .ok id else .error writeError)

/-- `add`; `drawn` are the ids drawn at random until one is new; a write that fails throws, and leaves the node in
memory. -/
def add (s : NodeStore) (name : JsString) (tags : List JsString) (secret : JsString) (drawn : List NodeId) (t : ℤ)
    (written : Bool) : NodeStore × Except JsString (Option NodeId) :=
  match checkNode name tags with
  | .error e => (s, .error e)
  | .ok clean =>
    if h : isHex64 secret = true then
      let s := s.load
      if s.unreadable then (s, .error unreadableError)
      else match drawn.find? fun id => !s.table.contains id with
        | none => (s, .ok none)
        | some id => ((s.alloc id (.fresh clean ⟨secret, h⟩ false t (some tags))).save written,
            if written then .ok (some id) else .error writeError)
    else (s, .error (js "secret: 64 hex characters"))

/-- `change`: the record is changed in place, then the file is written; a write that fails throws, and leaves the
change in memory. -/
def change (s : NodeStore) (id : NodeId) (fn : (n : NodeRec) → n.revoked = false → Except JsString NodeRec)
    (written : Bool) : NodeStore × Except JsString Unit :=
  let s := s.load
  match s.table.get? id with
  | none => (s, .error (js "no node " ++ id.1))
  | some a => match s.heap[a]? with
    | none => (s, .error (js "no node " ++ id.1))
    | some n =>
      if h : n.revoked = false then
        match fn n h with
        | .error e => (s, .error e)
        | .ok n' => ({ s with heap := s.heap.set a n' }.save written, if written then .ok () else .error writeError)
      else (s, .error (js "no node " ++ id.1))

def rename (s : NodeStore) (id : NodeId) (name : JsString) (written : Bool) : NodeStore × Except JsString Unit :=
  s.change id (fun n _ => (checkName name).map fun clean => { n with name := clean }) written

def setTags (s : NodeStore) (id : NodeId) (tags : List JsString) (written : Bool) :
    NodeStore × Except JsString Unit :=
  s.change id (fun n _ => (checkNode n.name tags).map fun _ => { n with tags := some tags.eraseDups }) written

def revoke (s : NodeStore) (id : NodeId) (written : Bool) : NodeStore × Except JsString Unit :=
  s.change id (fun n _ => if n.isLocal then .error (js "the local node cannot be revoked") else .ok n.revoke) written

def rotate (s : NodeStore) (id : NodeId) (secret : Secret) (t : ℤ) (written : Bool) :
    NodeStore × Except JsString Unit :=
  s.change id (fun n h => .ok (n.rotate h secret t)) written

/-- A call of the store by a running hub. -/
inductive StoreOp
  | add (name : JsString) (tags : List JsString) (secret : JsString) (drawn : List NodeId) (written : Bool)
  | rename (id : NodeId) (name : JsString) (written : Bool)
  | setTags (id : NodeId) (tags : List JsString) (written : Bool)
  | revoke (id : NodeId) (written : Bool)
  | rotate (id : NodeId) (secret : Secret) (written : Bool)

def call (s : NodeStore) (t : ℤ) : StoreOp → NodeStore
  | .add name tags secret drawn written => (s.add name tags secret drawn t written).1
  | .rename id name written => (s.rename id name written).1
  | .setTags id tags written => (s.setTags id tags written).1
  | .revoke id written => (s.revoke id written).1
  | .rotate id secret written => (s.rotate id secret t written).1

/-! ### What the calls keep -/

/-- The file is the one the store read or wrote last. -/
def Synced (s : NodeStore) : Prop := ∃ v nodes, s.file = some (v, some nodes) ∧ s.mtime = some v

/-- The file as a store wrote it. -/
def readable (s : NodeStore) : Option (ℕ × OMap NodeId NodeRec) := s.file.bind fun f => f.2.map fun nodes => (f.1, nodes)

theorem load_of_synced {s : NodeStore} (h : s.Synced) : s.load = s := by
  obtain ⟨v, nodes, hfile, hmtime⟩ := h
  unfold load
  rw [hfile]
  exact if_pos hmtime

/-- Records read from the file change the heap and the table only. -/
theorem foldl_alloc (es : List (NodeId × NodeRec)) (s : NodeStore) :
    (es.foldl (fun s e => s.alloc e.1 e.2) s).file = s.file ∧ (es.foldl (fun s e => s.alloc e.1 e.2) s).mtime = s.mtime ∧
      (es.foldl (fun s e => s.alloc e.1 e.2) s).unreadable = s.unreadable := by
  induction es generalizing s with
  | nil => exact ⟨rfl, rfl, rfl⟩
  | cons e es ih => exact ih (s.alloc e.1 e.2)

/-- A process that runs has read or written its file. -/
theorem synced_ensureLocal (file : Option (ℕ × OMap NodeId NodeRec)) (name : JsString) (id : NodeId) (secret : Secret)
    (t : ℤ) : ((fromFile (file.map fun f => (f.1, some f.2))).ensureLocal name id secret t true).1.Synced := by
  cases file with
  | none => exact ⟨_, _, rfl, rfl⟩
  | some f =>
    obtain ⟨v, nodes⟩ := f
    obtain ⟨hfile, hmtime, hreadable⟩ := foldl_alloc nodes.entries
      { fromFile (some (v, some nodes)) with table := .empty, mtime := some v, unreadable := false }
    have hload : (fromFile (some (v, some nodes))).load = nodes.entries.foldl (fun s e => s.alloc e.1 e.2)
        { fromFile (some (v, some nodes)) with table := .empty, mtime := some v, unreadable := false } := rfl
    rw [← hload] at hfile hmtime hreadable
    unfold ensureLocal
    dsimp only [Option.map_some]
    split
    · exact ⟨v, nodes, hfile, hmtime⟩
    · rw [hreadable]
      exact ⟨_, _, rfl, rfl⟩

/-- The store after a call: still in step with its file, each id still has its address, and a revoked record stays
revoked. -/
structure Keeps (s s' : NodeStore) : Prop where
  synced : s'.Synced
  table : ∀ id a, s.table.get? id = some a → s'.table.get? id = some a
  revoked : ∀ (a : ℕ) n, s.heap[a]? = some n → n.revoked = true → ∃ n', s'.heap[a]? = some n' ∧ n'.revoked = true

theorem Keeps.refl {s : NodeStore} (h : s.Synced) : s.Keeps s :=
  ⟨h, fun _ _ ht => ht, fun _ n hn hr => ⟨n, hn, hr⟩⟩

theorem Keeps.trans {s₁ s₂ s₃ : NodeStore} (h : s₁.Keeps s₂) (h' : s₂.Keeps s₃) : s₁.Keeps s₃ where
  synced := h'.synced
  table := fun id a ht => h'.table id a (h.table id a ht)
  revoked := fun a n hn hr => by
    obtain ⟨n', hn', hr'⟩ := h.revoked a n hn hr
    exact h'.revoked a n' hn' hr'

private theorem keeps_save {s : NodeStore} (h : s.Synced) (written : Bool) : s.Keeps (s.save written) := by
  unfold save
  split
  · exact ⟨⟨_, _, rfl, rfl⟩, fun _ _ ht => ht, fun _ n hn hr => ⟨n, hn, hr⟩⟩
  · exact .refl h

private theorem keeps_alloc {s : NodeStore} (h : s.Synced) {id : NodeId} (hid : s.table.get? id = none) (n : NodeRec) :
    s.Keeps (s.alloc id n) where
  synced := h
  table := fun id' a ha => by
    have hne : id' ≠ id := fun he => by rw [he, hid] at ha; cases ha
    rw [show (s.alloc id n).table = s.table.set id s.heap.length from rfl, OMap.get?_set_of_ne _ hne]
    exact ha
  revoked := fun a n' hn' hr => by
    refine ⟨n', ?_, hr⟩
    rw [show (s.alloc id n).heap = s.heap ++ [n] from rfl,
      List.getElem?_append_left (List.getElem?_eq_some_iff.1 hn').1]
    exact hn'

private theorem keeps_change {s : NodeStore} (h : s.Synced) (id : NodeId)
    (fn : (n : NodeRec) → n.revoked = false → Except JsString NodeRec) (written : Bool) :
    s.Keeps (s.change id fn written).1 := by
  unfold change
  rw [load_of_synced h]
  dsimp only
  split
  · exact .refl h
  · rename_i a ha
    split
    · exact .refl h
    · rename_i n hn
      split
      · rename_i hnot
        split
        · exact .refl h
        · rename_i n' hn'
          refine Keeps.trans ?_ (keeps_save (s := { s with heap := s.heap.set a n' }) h written)
          refine ⟨h, fun _ _ ht => ht, fun a' m hm hr => ?_⟩
          by_cases haa : a' = a
          · subst haa
            obtain rfl := Option.some.inj (hn.symm.trans hm)
            rw [hnot] at hr
            cases hr
          · refine ⟨m, ?_, hr⟩
            rw [List.getElem?_set_ne (Ne.symm haa)]
            exact hm
      · exact .refl h

/-- A known node that is not the hub's own is revoked after `revoke`, written or not. -/
theorem revoked_of_revoke {s : NodeStore} (h : s.Synced) {id : NodeId} {n : NodeRec} (hn : s.find id = some n)
    (hlocal : n.isLocal = false) (written : Bool) :
    ∃ a n', (s.revoke id written).1.table.get? id = some a ∧ (s.revoke id written).1.heap[a]? = some n' ∧
      n'.revoked = true := by
  obtain ⟨a, ha, hheap⟩ := Option.bind_eq_some_iff.1 hn
  unfold revoke change
  rw [load_of_synced h]
  simp only [ha, hheap, hlocal, Bool.false_eq_true, if_false]
  split
  · have hlt : a < s.heap.length := (List.getElem?_eq_some_iff.1 hheap).1
    refine ⟨a, n.revoke, ?_, ?_, rfl⟩
    · unfold save
      split <;> exact ha
    · unfold save
      split <;> exact List.getElem?_set_self hlt
  · rename_i hrevoked
    exact ⟨a, n, ha, hheap, by simpa using hrevoked⟩

/-- Every call of a running hub keeps the records its requests hold. -/
theorem keeps_call {s : NodeStore} (h : s.Synced) (t : ℤ) (op : StoreOp) : s.Keeps (s.call t op) := by
  cases op with
  | add name tags secret drawn written =>
    unfold call add
    dsimp only
    split
    · exact .refl h
    · split
      · rw [load_of_synced h]
        split
        · exact .refl h
        · split
          · exact .refl h
          · rename_i id hid
            have hnone : s.table.get? id = none := by
              have := List.find?_some hid
              simpa [OMap.contains] using this
            exact (keeps_alloc h hnone _).trans (keeps_save (s := s.alloc id _) h written)
      · exact .refl h
  | rename id name written => exact keeps_change h id _ written
  | setTags id tags written => exact keeps_change h id _ written
  | revoke id written => exact keeps_change h id _ written
  | rotate id secret written => exact keeps_change h id _ written

end NodeStore

end Servitals
