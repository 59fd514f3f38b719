import Servitals.JsString
import Servitals.Lib.Latest
import Servitals.Lib.OMap
import Servitals.Lib.Runs

/-!
# The offline shell

The caches of the service worker `www/sw.js`: its `install`, `activate` and `fetch` listeners.  The page and its files
come from the network, and from a cache only when the network gives no answer or one of 500 and above; the rest always
comes from the network.  Workers of several versions can be at work at once: each fills the cache of its own version, and
the copy of an answer is stored some time after the answer was given.

`fetch` is the moment when the network has answered a worker, or failed, or has not answered a page load in six seconds.
Of `caches.match` the `Vary` header is left out.
-/

namespace Servitals

namespace PageCache

/-- A URL of the hub, without its fragment. -/
structure Url where
  path : JsString
  query : JsString
  deriving DecidableEq

structure Request where
  isGet : Bool
  own : Bool
  url : Url
  navigate : Bool
  deriving DecidableEq

structure Response where
  status : ℕ
  basic : Bool
  cacheControl : JsString
  contentType : JsString
  body : List UInt8
  deriving DecidableEq

def Response.ok (res : Response) : Bool := 200 ≤ res.status && res.status ≤ 299

/-- `SHELL` -/
def SHELL : List Url :=
  [js "/", js "/app.css", js "/boot.js", js "/js/i18n.js", js "/js/app.js", js "/js/settings.js", js "/js/history.js",
    js "/js/alerts.js", js "/manifest.webmanifest", js "/icons/icon-192.png"].map fun p => ⟨p, []⟩

/-- The page. -/
def page : Url := ⟨js "/", []⟩

/-- What never comes from a cache: the data, the settings, the pages and answers of the hub's own paths. -/
def isLive (p : JsString) : Bool :=
  decide (p = js "/data.json") || decide (p = js "/config.json") || decide (p = js "/link") || (js "/__").isPrefixOf p ||
    (js "/api/").isPrefixOf p

/-- `route` says "shell". -/
def isShell (r : Request) : Bool := r.isGet && r.own && !isLive r.url.path

/-- A text of a header has a word. -/
def has (word header : JsString) : Bool := header.tails.any word.isPrefixOf

/-- `keep` -/
def keep (r : Request) (res : Response) : Bool :=
  if !res.ok || !res.basic then false
  else if has (js "no-store") res.cacheControl then false
  else r.navigate || !has (js "text/html") res.contentType

/-- The caches of the versions, in the order they were made, and the copies on their way.  `stored` is a history variable:
what was put into the caches that are there, one after the other. -/
structure Caches where
  caches : OMap JsString (OMap Url Response)
  puts : List ((JsString × Url) × Response)
  stored : List ((JsString × Url) × Response)

namespace Caches

def start : Caches := ⟨.empty, [], []⟩

/-- `caches.open` -/
def openCache (s : Caches) (v : JsString) : Caches := { s with caches := s.caches.set v ((s.caches.get? v).getD .empty) }

/-- `c.put`, in the cache of a version. -/
def put (s : Caches) (p : (JsString × Url) × Response) : Caches :=
  { s with
    caches := s.caches.set p.1.1 (((s.caches.get? p.1.1).getD .empty).set p.1.2 p.2)
    stored := s.stored ++ [p] }

/-- The `install` listener: with an answer to every file of the shell the copies are stored, and none is otherwise. -/
def install (s : Caches) (v : JsString) (answers : Url → Option Response) : Caches :=
  let s := s.openCache v
  if SHELL.all fun u => (answers u).any Response.ok then
    (SHELL.filterMap fun u => (answers u).map fun res => ((v, u), res)).foldl put s
  else s

/-- The `activate` listener. -/
def activate (s : Caches) (v : JsString) : Caches :=
  { s with caches := s.caches.filter fun w _ => w = v, stored := s.stored.filter fun p => p.1.1 = v }

/-- `caches.match` -/
def lookup (s : Caches) (url : Url) : Option Response := s.caches.entries.findSome? fun e => e.2.get? url

/-- `lastCopy` -/
def lastCopy (s : Caches) (r : Request) : Option Response := (s.lookup r.url).or (if r.navigate then s.lookup page else none)

/-- What a request gets: it is left to the network, the network's answer, a copy, or an error. -/
inductive Given
  | left
  | network (res : Response)
  | copy (res : Response)
  | error
  deriving DecidableEq

/-- The answer of the `fetch` listener, with what the network gives. -/
def answer (s : Caches) (r : Request) (net : Option Response) : Given :=
  if !isShell r then .left
  else match net with
    | some res =>
      if 500 ≤ res.status then match s.lastCopy r with
        | some hit => .copy hit
        | none => .network res
      else .network res
    | none => match s.lastCopy r with
      | some hit => .copy hit
      | none => .error

/-- What the `fetch` listener of a version does to the caches. -/
def fetch (s : Caches) (v : JsString) (r : Request) (net : Option Response) : Caches :=
  if !isShell r then s
  else match net with
    | some res => if res.status < 500 && keep r res then { s with puts := s.puts ++ [((v, r.url), res)] } else s
    | none => s

/-- A copy on its way is stored. -/
def settle (s : Caches) (i : ℕ) : Caches :=
  match s.puts[i]? with
  | some p => { s with puts := s.puts.eraseIdx i }.put p
  | none => s

/-- What happens: to the worker of a version, or to a copy on its way. -/
inductive Event
  | install (v : JsString) (answers : Url → Option Response)
  | activate (v : JsString)
  | fetch (v : JsString) (r : Request) (net : Option Response)
  | settle (i : ℕ)

def step (s : Caches) : Event → Caches
  | .install v answers => s.install v answers
  | .activate v => s.activate v
  | .fetch v r net => s.fetch v r net
  | .settle i => s.settle i

/-! ### Where a copy comes from -/

/-- The network's answers to the requests that a worker is asked for. -/
def seen (run : List Event) : List (Request × Response) :=
  run.filterMap fun x => match x with
    | .fetch _ r net => net.map fun res => (r, res)
    | _ => none

/-- The network's answers at the installs. -/
def installed (run : List Event) : List (Url × Response) :=
  run.flatMap fun x => match x with
    | .install _ answers => SHELL.filterMap fun u => (answers u).map fun res => (u, res)
    | _ => []

/-- A copy is an answer of the network of status 200 to 299, to a request for this URL that may be kept, or at an install. -/
structure Origin (run : List Event) (url : Url) (res : Response) : Prop where
  ok : res.ok = true
  live : isLive url.path = false
  from' : (∃ r, (r, res) ∈ seen run ∧ r.url = url ∧ isShell r = true ∧ keep r res = true) ∨
    url ∈ SHELL ∧ (url, res) ∈ installed run

theorem Origin.mono {run : List Event} {url : Url} {res : Response} (h : Origin run url res) (x : Event) :
    Origin (run ++ [x]) url res := by
  refine ⟨h.ok, h.live, h.from'.imp ?_ ?_⟩
  · rintro ⟨r, hr, hurl, hshell, hkeep⟩
    refine ⟨r, ?_, hurl, hshell, hkeep⟩
    unfold seen
    rw [List.filterMap_append]
    exact List.mem_append_left _ hr
  · rintro ⟨hin, hres⟩
    refine ⟨hin, ?_⟩
    unfold installed
    rw [List.flatMap_append]
    exact List.mem_append_left _ hres

/-- Every copy, stored or on its way, has an origin. -/
structure Sound (run : List Event) (s : Caches) : Prop where
  stored : ∀ v m, s.caches.get? v = some m → ∀ url res, m.get? url = some res → Origin run url res
  puts : ∀ p ∈ s.puts, Origin run p.1.2 p.2

theorem Sound.mono {run : List Event} {s : Caches} (hs : Sound run s) (x : Event) : Sound (run ++ [x]) s :=
  ⟨fun v m hm url res hres => (hs.stored v m hm url res hres).mono x, fun p hp => (hs.puts p hp).mono x⟩

private theorem Sound.openCache {run : List Event} {s : Caches} (hs : Sound run s) (v : JsString) :
    Sound run (s.openCache v) := by
  refine ⟨fun w m hm url res hres => ?_, hs.puts⟩
  have hm : (s.caches.set v ((s.caches.get? v).getD .empty)).get? w = some m := hm
  rw [OMap.get?_set] at hm
  split at hm
  · obtain rfl := Option.some.inj hm
    cases hold : s.caches.get? v with
    | none =>
      rw [hold] at hres
      cases hres
    | some m' =>
      rw [hold] at hres
      exact hs.stored v m' hold url res hres
  · exact hs.stored w m hm url res hres

theorem Sound.put {run : List Event} {s : Caches} (hs : Sound run s) {p : (JsString × Url) × Response}
    (hp : Origin run p.1.2 p.2) : Sound run (s.put p) := by
  refine ⟨fun w m hm url res hres => ?_, hs.puts⟩
  have hm : (s.caches.set p.1.1 (((s.caches.get? p.1.1).getD .empty).set p.1.2 p.2)).get? w = some m := hm
  rw [OMap.get?_set] at hm
  split at hm
  · obtain rfl := Option.some.inj hm
    rw [OMap.get?_set] at hres
    split at hres
    · rename_i hurl
      obtain rfl := Option.some.inj hres
      rw [hurl]
      exact hp
    · cases hold : s.caches.get? p.1.1 with
      | none =>
        rw [hold] at hres
        cases hres
      | some m' =>
        rw [hold] at hres
        exact hs.stored p.1.1 m' hold url res hres
  · exact hs.stored w m hm url res hres

theorem Sound.foldl {run : List Event} (ps : List ((JsString × Url) × Response)) {s : Caches} (hs : Sound run s)
    (hps : ∀ p ∈ ps, Origin run p.1.2 p.2) : Sound run (ps.foldl Caches.put s) := by
  induction ps generalizing s with
  | nil => exact hs
  | cons p ps ih =>
    exact ih (hs.put (hps p List.mem_cons_self)) fun q hq => hps q (List.mem_cons_of_mem p hq)

private theorem live_of_mem_SHELL {url : Url} (h : url ∈ SHELL) : isLive url.path = false := by
  have hall : (SHELL.all fun u => !isLive u.path) = true := by decide +kernel
  simpa using List.all_eq_true.1 hall url h

theorem Sound.step {run : List Event} {s : Caches} (hs : Sound run s) (x : Event) : Sound (run ++ [x]) (s.step x) := by
  have hmono := hs.mono x
  cases x with
  | install v answers =>
    show Sound _ (s.install v answers)
    unfold install
    dsimp only
    split
    · rename_i hall
      refine (hmono.openCache v).foldl _ fun p hp => ?_
      obtain ⟨u, hu, hpu⟩ := List.mem_filterMap.1 hp
      obtain ⟨res, hres, rfl⟩ := Option.map_eq_some_iff.1 hpu
      have hok := List.all_eq_true.1 hall u hu
      rw [hres] at hok
      refine ⟨hok, live_of_mem_SHELL hu, Or.inr ⟨hu, ?_⟩⟩
      unfold installed
      rw [List.flatMap_append, List.flatMap_singleton]
      refine List.mem_append_right _ (List.mem_filterMap.2 ⟨u, hu, ?_⟩)
      rw [hres]
      rfl
    · exact hmono.openCache v
  | activate v =>
    refine ⟨fun w m hm url res hres => ?_, hmono.puts⟩
    have hm : (s.caches.filter fun w _ => w = v).get? w = some m := hm
    rw [OMap.get?_filter, Option.filter_eq_some_iff] at hm
    exact hmono.stored w m hm.1 url res hres
  | fetch v r net =>
    show Sound _ (s.fetch v r net)
    unfold fetch
    split
    · exact hmono
    · rename_i hshell
      have hshell : isShell r = true := by simpa using hshell
      cases net with
      | none => exact hmono
      | some res =>
        dsimp only
        split
        · rename_i hkeep
          have hkeep : keep r res = true := (Bool.and_eq_true_iff.1 hkeep).2
          refine ⟨hmono.stored, fun p hp => ?_⟩
          rcases List.mem_append.1 hp with hp | hp
          · exact hmono.puts p hp
          · rw [List.mem_singleton.1 hp]
            refine ⟨?_, ?_, Or.inl ⟨r, ?_, rfl, hshell, hkeep⟩⟩
            · unfold keep at hkeep
              cases hok : res.ok with
              | true => rfl
              | false => simp [hok] at hkeep
            · simpa [isShell] using (Bool.and_eq_true_iff.1 hshell).2
            · unfold seen
              rw [List.filterMap_append]
              exact List.mem_append_right _ List.mem_cons_self
        · exact hmono
  | settle i =>
    show Sound _ (s.settle i)
    unfold settle
    split
    · rename_i p hp
      have hrest : Sound (run ++ [.settle i]) { s with puts := s.puts.eraseIdx i } :=
        ⟨hmono.stored, fun q hq => hmono.puts q (List.mem_of_mem_eraseIdx hq)⟩
      exact hrest.put (hmono.puts p (List.mem_of_getElem? hp))
    · exact hmono

theorem sound_run (run : List Event) : Sound run (Runs.run step start run) := by
  induction run using List.reverseRecOn with
  | nil => exact ⟨fun v m hm => (by cases hm), fun p hp => absurd hp List.not_mem_nil⟩
  | append_singleton run x ih =>
    rw [Runs.run_snoc]
    exact ih.step x

theorem Sound.lookup {run : List Event} {s : Caches} (hs : Sound run s) {url : Url} {res : Response}
    (h : s.lookup url = some res) : Origin run url res := by
  obtain ⟨e, he, hres⟩ := List.exists_of_findSome?_eq_some h
  exact hs.stored e.1 e.2 (OMap.mem_entries_iff.1 he) url res hres

private theorem Sound.lastCopy {run : List Event} {s : Caches} (hs : Sound run s) {r : Request} {res : Response}
    (h : s.lastCopy r = some res) : Origin run r.url res ∨ r.navigate = true ∧ Origin run page res := by
  unfold Caches.lastCopy at h
  rcases Option.or_eq_some_iff.1 h with h | ⟨-, h⟩
  · exact Or.inl (hs.lookup h)
  · split at h
    · rename_i hnav
      exact Or.inr ⟨hnav, hs.lookup h⟩
    · cases h

/-- **Where an answer comes from.**  In every run of workers of any versions, with their copies stored in any order: a
request for data, a setting or a hub's own path is left to the network, and so is one for another site.  Any other is
answered with the network's answer when there is one under 500, and else with a copy or not at all.  A copy is an answer
the network gave before, of status 200 to 299, for the same URL or, for a page load, for the page: to a request for that
URL that lets it be kept, or at the install of a worker. -/
theorem answers_from (run : List Event) (r : Request) (net : Option Response) :
    let s := Runs.run step start run
    (isShell r = false → s.answer r net = .left) ∧
      (isShell r = true → ∀ res, net = some res → res.status < 500 → s.answer r net = .network res) ∧
      (∀ res, s.answer r net = .network res → net = some res) ∧
      ∀ res, s.answer r net = .copy res →
        isShell r = true ∧ (∀ w, net = some w → 500 ≤ w.status) ∧ res.ok = true ∧
          ∃ url, (url = r.url ∨ r.navigate = true ∧ url = page) ∧ isLive url.path = false ∧
            ((∃ q, (q, res) ∈ seen run ∧ q.url = url ∧ isShell q = true ∧ keep q res = true) ∨
              url ∈ SHELL ∧ (url, res) ∈ installed run) := by
  intro s
  have hs : Sound run s := sound_run run
  have hcopy : ∀ {res}, s.lastCopy r = some res → res.ok = true ∧
      ∃ url, (url = r.url ∨ r.navigate = true ∧ url = page) ∧ isLive url.path = false ∧
        ((∃ q, (q, res) ∈ seen run ∧ q.url = url ∧ isShell q = true ∧ keep q res = true) ∨
          url ∈ SHELL ∧ (url, res) ∈ installed run) := by
    intro res hres
    rcases hs.lastCopy hres with h | ⟨hnav, h⟩
    · exact ⟨h.ok, r.url, Or.inl rfl, h.live, h.from'⟩
    · exact ⟨h.ok, page, Or.inr ⟨hnav, rfl⟩, h.live, h.from'⟩
  unfold answer
  cases hshell : isShell r with
  | false => simp
  | true =>
    cases net with
    | none =>
      cases hlast : s.lastCopy r with
      | none => simp
      | some hit => simpa using hcopy hlast
    | some w =>
      by_cases hdown : 500 ≤ w.status
      · cases hlast : s.lastCopy r with
        | none => simp [hdown]
        | some hit => simpa [hdown, Nat.not_lt.2 hdown] using hcopy hlast
      · simp [hdown]

/-! ### The newest copy -/

/-- Under each version and URL, the last copy that was stored is there. -/
def Agrees (s : Caches) : Prop := ∀ v url, (s.caches.get? v).bind (fun m => m.get? url) = Entries.last s.stored (v, url)

private theorem Agrees.openCache {s : Caches} (hs : s.Agrees) (v : JsString) : (s.openCache v).Agrees := by
  intro w url
  show ((s.caches.set v ((s.caches.get? v).getD .empty)).get? w).bind _ = Entries.last s.stored (w, url)
  rw [← hs w url, OMap.get?_set]
  split
  · rename_i hw
    rw [hw]
    cases s.caches.get? v <;> rfl
  · rfl

theorem Agrees.put {s : Caches} (hs : s.Agrees) (p : (JsString × Url) × Response) : (s.put p).Agrees := by
  intro w url
  show ((s.caches.set p.1.1 (((s.caches.get? p.1.1).getD .empty).set p.1.2 p.2)).get? w).bind _ =
    Entries.last (s.stored ++ [p]) (w, url)
  rw [Entries.last_append, Entries.last_singleton, ← hs w url, OMap.get?_set]
  by_cases hw : w = p.1.1
  · rw [if_pos hw, Option.bind_some, OMap.get?_set]
    by_cases hurl : url = p.1.2
    · rw [if_pos hurl, if_pos (by rw [hw, hurl])]
      rfl
    · rw [if_neg hurl, if_neg (fun h => hurl (by rw [h])), hw]
      cases s.caches.get? p.1.1 <;> rfl
  · rw [if_neg hw, if_neg (fun h => hw (by rw [h]))]
    rfl

theorem Agrees.foldl (ps : List ((JsString × Url) × Response)) {s : Caches} (hs : s.Agrees) :
    (ps.foldl Caches.put s).Agrees := by
  induction ps generalizing s with
  | nil => exact hs
  | cons p ps ih => exact ih (hs.put p)

theorem Agrees.step {s : Caches} (hs : s.Agrees) (x : Event) : (s.step x).Agrees := by
  cases x with
  | install v answers =>
    show (s.install v answers).Agrees
    unfold install
    dsimp only
    split
    · exact (hs.openCache v).foldl _
    · exact hs.openCache v
  | activate v =>
    intro w url
    show ((s.caches.filter fun w _ => w = v).get? w).bind _ =
      Entries.last (s.stored.filter fun p => decide (p.1.1 = v)) (w, url)
    rw [Entries.last_filter (fun k : JsString × Url => decide (k.1 = v)), ← hs w url, OMap.get?_filter]
    by_cases hw : w = v
    · cases s.caches.get? w <;> simp [hw, Option.filter]
    · cases s.caches.get? w <;> simp [hw]
  | fetch v r net =>
    show (s.fetch v r net).Agrees
    unfold fetch
    split
    · exact hs
    · split
      · split <;> exact hs
      · exact hs
  | settle i =>
    show (s.settle i).Agrees
    unfold settle
    split
    · rename_i p _
      exact Agrees.put (s := { s with puts := s.puts.eraseIdx i }) hs p
    · exact hs

private theorem agrees_run (run : List Event) : (Runs.run step start run).Agrees := by
  induction run using List.reverseRecOn with
  | nil => exact fun v url => rfl
  | append_singleton run x ih =>
    rw [Runs.run_snoc]
    exact ih.step x

/-- A step of a version, or of a copy on its way. -/
def Event.of (v : JsString) : Event → Bool
  | .install w _ => w = v
  | .activate w => w = v
  | .fetch w _ _ => w = v
  | .settle _ => true

/-- Nothing but a version's is in the caches or on its way to them. -/
structure OnlyOf (v : JsString) (s : Caches) : Prop where
  caches : ∀ w m, s.caches.get? w = some m → w = v
  puts : ∀ p ∈ s.puts, p.1.1 = v
  stored : ∀ p ∈ s.stored, p.1.1 = v

private theorem OnlyOf.openCache {v : JsString} {s : Caches} (hs : s.OnlyOf v) : (s.openCache v).OnlyOf v := by
  refine ⟨fun w m hm => ?_, hs.puts, hs.stored⟩
  have hm : (s.caches.set v ((s.caches.get? v).getD .empty)).get? w = some m := hm
  rw [OMap.get?_set] at hm
  split at hm
  · assumption
  · exact hs.caches w m hm

theorem OnlyOf.put {v : JsString} {s : Caches} (hs : s.OnlyOf v) {p : (JsString × Url) × Response} (hp : p.1.1 = v) :
    (s.put p).OnlyOf v := by
  refine ⟨fun w m hm => ?_, hs.puts, fun q hq => ?_⟩
  · have hm : (s.caches.set p.1.1 (((s.caches.get? p.1.1).getD .empty).set p.1.2 p.2)).get? w = some m := hm
    rw [OMap.get?_set] at hm
    split at hm
    · rename_i hw
      exact hw.trans hp
    · exact hs.caches w m hm
  · rcases List.mem_append.1 hq with hq | hq
    · exact hs.stored q hq
    · rw [List.mem_singleton.1 hq]
      exact hp

theorem OnlyOf.foldl {v : JsString} (ps : List ((JsString × Url) × Response)) {s : Caches} (hs : s.OnlyOf v)
    (hps : ∀ p ∈ ps, p.1.1 = v) : (ps.foldl Caches.put s).OnlyOf v := by
  induction ps generalizing s with
  | nil => exact hs
  | cons p ps ih => exact ih (hs.put (hps p List.mem_cons_self)) fun q hq => hps q (List.mem_cons_of_mem p hq)

private theorem stored_foldl (ps : List ((JsString × Url) × Response)) (s : Caches) :
    (ps.foldl Caches.put s).stored = s.stored ++ ps := by
  induction ps generalizing s with
  | nil => exact (List.append_nil _).symm
  | cons p ps ih =>
    rw [List.foldl_cons, ih]
    exact List.append_assoc _ _ _

private theorem onlyOf_activate {s : Caches} {v : JsString} (hputs : ∀ p ∈ s.puts, p.1.1 = v) :
    (s.activate v).OnlyOf v := by
  refine ⟨fun w m hm => ?_, hputs, fun p hp => by simpa using (List.mem_filter.1 hp).2⟩
  have hm : (s.caches.filter fun w _ => w = v).get? w = some m := hm
  rw [OMap.get?_filter, Option.filter_eq_some_iff] at hm
  simpa using hm.2

/-- A version's own step keeps the rest out, and loses nothing that was stored. -/
theorem OnlyOf.step {v : JsString} {s : Caches} (hs : s.OnlyOf v) {x : Event} (hx : x.of v = true) :
    (s.step x).OnlyOf v ∧ ∃ news, (s.step x).stored = s.stored ++ news := by
  have hself : ∃ news, s.stored = s.stored ++ news := ⟨[], (List.append_nil _).symm⟩
  cases x with
  | install w answers =>
    obtain rfl : w = v := by simpa [Event.of] using hx
    show (s.install w answers).OnlyOf w ∧ ∃ news, (s.install w answers).stored = s.stored ++ news
    unfold install
    dsimp only
    split
    · refine ⟨hs.openCache.foldl _ fun p hp => ?_, _, stored_foldl _ _⟩
      obtain ⟨u, -, hpu⟩ := List.mem_filterMap.1 hp
      obtain ⟨res, -, rfl⟩ := Option.map_eq_some_iff.1 hpu
      rfl
    · exact ⟨hs.openCache, hself⟩
  | activate w =>
    obtain rfl : w = v := by simpa [Event.of] using hx
    refine ⟨onlyOf_activate hs.puts, [], ?_⟩
    show (s.stored.filter fun p => decide (p.1.1 = w)) = s.stored ++ []
    rw [List.append_nil, List.filter_eq_self]
    exact fun p hp => decide_eq_true (hs.stored p hp)
  | fetch w r net =>
    obtain rfl : w = v := by simpa [Event.of] using hx
    show (s.fetch w r net).OnlyOf w ∧ ∃ news, (s.fetch w r net).stored = s.stored ++ news
    unfold fetch
    split
    · exact ⟨hs, hself⟩
    · split
      · split
        · refine ⟨⟨hs.caches, fun p hp => ?_, hs.stored⟩, hself⟩
          rcases List.mem_append.1 hp with hp | hp
          · exact hs.puts p hp
          · rw [List.mem_singleton.1 hp]
        · exact ⟨hs, hself⟩
      · exact ⟨hs, hself⟩
  | settle i =>
    show (s.settle i).OnlyOf v ∧ ∃ news, (s.settle i).stored = s.stored ++ news
    unfold settle
    split
    · rename_i p hp
      have hrest : OnlyOf v { s with puts := s.puts.eraseIdx i } :=
        ⟨hs.caches, fun q hq => hs.puts q (List.mem_of_mem_eraseIdx hq), hs.stored⟩
      exact ⟨hrest.put (hs.puts p (List.mem_of_getElem? hp)), [p], rfl⟩
    · exact ⟨hs, hself⟩

theorem OnlyOf.run {v : JsString} {s : Caches} (hs : s.OnlyOf v) {run : List Event} (hrun : ∀ x ∈ run, x.of v = true) :
    (Runs.run Caches.step s run).OnlyOf v ∧ ∃ news, (Runs.run Caches.step s run).stored = s.stored ++ news := by
  induction run generalizing s with
  | nil => exact ⟨hs, [], (List.append_nil _).symm⟩
  | cons x run ih =>
    obtain ⟨hone, news, hnews⟩ := hs.step (hrun x List.mem_cons_self)
    obtain ⟨hrest, more, hmore⟩ := ih hone fun y hy => hrun y (List.mem_cons_of_mem x hy)
    refine ⟨hrest, news ++ more, ?_⟩
    rw [Runs.run_cons, hmore, hnews, List.append_assoc]

/-- With one version's cache alone, a lookup finds the last copy that was stored. -/
theorem OnlyOf.lookup {v : JsString} {s : Caches} (hs : s.OnlyOf v) (hagrees : s.Agrees) (url : Url) :
    s.lookup url = Entries.last s.stored (v, url) := by
  rw [← hagrees v url]
  have hfound : ∀ res, s.lookup url = some res → (s.caches.get? v).bind (fun m => m.get? url) = some res := by
    intro res h
    obtain ⟨e, he, hres⟩ := List.exists_of_findSome?_eq_some h
    have hget := OMap.mem_entries_iff.1 he
    rw [← hs.caches e.1 e.2 hget, hget]
    exact hres
  cases hbind : (s.caches.get? v).bind (fun m => m.get? url) with
  | none =>
    cases hlookup : s.lookup url with
    | none => rfl
    | some res =>
      rw [hfound res hlookup] at hbind
      cases hbind
  | some res =>
    obtain ⟨m, hm, hres⟩ := Option.bind_eq_some_iff.1 hbind
    cases hlookup : s.lookup url with
    | none =>
      have hnone := List.findSome?_eq_none_iff.1 hlookup (v, m) (OMap.mem_entries_iff.2 hm)
      rw [hres] at hnone
      cases hnone
    | some res' =>
      rw [hfound res' hlookup] at hbind
      exact hbind

/-- **The newest copy.**  From the moment that a version is activated with no copy of another on its way, and as long as the
steps are its own: a request whose answer the network does not give gets the last copy that this version stored for its URL
or, failing that and for a page load, for the page; what the version stored before is kept, no cache of another is left,
and its own has the last copy stored for each URL. -/
theorem newest_copy (before : List Event) (v : JsString) (after : List Event)
    (hputs : ∀ p ∈ (Runs.run step start before).puts, p.1.1 = v) (hafter : ∀ x ∈ after, x.of v = true) (r : Request)
    (hr : isShell r = true) :
    let s := Runs.run step start (before ++ .activate v :: after)
    (s.answer r none = match (Entries.last s.stored (v, r.url)).or
          (if r.navigate then Entries.last s.stored (v, page) else none) with
        | some hit => .copy hit
        | none => .error) ∧
      (∃ news, s.stored = (Runs.run step start before).stored.filter (fun p => decide (p.1.1 = v)) ++ news) ∧
      (∀ w m, s.caches.get? w = some m → w = v) ∧
      ∀ url, (s.caches.get? v).bind (fun m => m.get? url) = Entries.last s.stored (v, url) := by
  intro s
  have hs : s = Runs.run step ((Runs.run step start before).activate v) after := Runs.run_append step start before _
  obtain ⟨honly, hnews⟩ := (onlyOf_activate hputs).run hafter
  rw [← hs] at honly hnews
  have hagrees : s.Agrees := agrees_run _
  refine ⟨?_, hnews, honly.caches, hagrees v⟩
  have hcopy : s.lastCopy r = (Entries.last s.stored (v, r.url)).or
      (if r.navigate then Entries.last s.stored (v, page) else none) := by
    rw [lastCopy, honly.lookup hagrees, honly.lookup hagrees]
  rw [answer, hr, ← hcopy]
  rfl

/-- An answer with a page. -/
def html (body : List UInt8) : Response := ⟨200, true, js "no-cache", js "text/html; charset=utf-8", body⟩

def pageLoad : Request := ⟨true, true, page, true⟩

/-- A worker that was installed, and a second one that is installed while a page load is answered. -/
def beforeUpgrade : List Event :=
  [.install (js "0.1.0") fun _ => some (html [1]), .activate (js "0.1.0"), .fetch (js "0.1.0") pageLoad (some (html [2])),
    .install (js "0.2.0") fun _ => some (html [3]), .settle 0]

def afterUpgrade : List Event := [.fetch (js "0.2.0") pageLoad (some (html [4])), .settle 0]

def upgraded : Caches := Runs.run step start (beforeUpgrade ++ .activate (js "0.2.0") :: afterUpgrade)

theorem newest_copy_upgraded :
    ((upgraded.answer pageLoad none = match (Entries.last upgraded.stored (js "0.2.0", pageLoad.url)).or
          (if pageLoad.navigate then Entries.last upgraded.stored (js "0.2.0", page) else none) with
        | some hit => .copy hit
        | none => .error) ∧
      (∃ news, upgraded.stored = (Runs.run step start beforeUpgrade).stored.filter (fun p => decide (p.1.1 = js "0.2.0")) ++
        news) ∧
      (∀ w m, upgraded.caches.get? w = some m → w = js "0.2.0") ∧
      ∀ url, (upgraded.caches.get? (js "0.2.0")).bind (fun m => m.get? url) =
        Entries.last upgraded.stored (js "0.2.0", url)) ∧
    upgraded.answer pageLoad none = .copy (html [4]) :=
  ⟨newest_copy beforeUpgrade (js "0.2.0") afterUpgrade (by decide +kernel) (by decide +kernel) pageLoad (by decide +kernel),
    by decide +kernel⟩

end Caches

end PageCache

end Servitals
