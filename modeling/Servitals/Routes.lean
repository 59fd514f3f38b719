import Servitals.FileNames
import Servitals.ClientResolver

/-!
# The hub's routes

`handle` of `hub/server.js`: which handler a request comes to.  Agents and linking servers have an interface of their own;
for the rest the order of the checks decides: the ban, the origin of a request that changes something, the session, and for
some the LAN.  What a handler does then is not the routes' business, except that some changes of it need the LAN or the
hub's own host.

`Node`'s `URL` gives the host of an `Origin` header and a parameter of the query: `hostOf`, and `node` of a request.
-/

namespace Servitals

/-- A request of a browser: its line, the headers that the routes read, and the query's `node`. -/
structure WebRequest where
  method : JsString
  url : JsString
  host : Option JsString
  forwardedHost : Option JsString
  origin : Option JsString
  node : Option JsString

/-- Who asks: what the ban list, the whitelist, the trusted proxies and the session say. -/
structure Visitor where
  banned : Bool
  whitelisted : Bool
  peerTrusted : Bool
  authed : Bool

/-- What the hub's configuration and its nodes say; `hostOf` is the host of a URL, none when it does not parse. -/
structure HubSite where
  hostOf : JsString → Option JsString
  lowerCase : JsString → JsString
  publicUrl : Option JsString
  lanOnly : Bool
  localId : Option NodeId
  listed : NodeId → Bool

inductive ContainerAction
  | restart | start | stop | logs
  deriving DecidableEq

/-- The handlers, and the answers of the routes themselves. -/
inductive Handler
  | linkApi | agentApi
  | bannedPage | health | crossOrigin
  | login | logout | postOnly
  | publicFile | linkPage | loginRequired | loginPage
  | settings | snapshot
  | refresh | alerts | mute | rules | saveRules | channels | saveChannels | testChannel
  | pushDevices | subscribe | unsubscribe | history | fleet
  | nodeView (id : NodeId) | revoke (id : NodeId) | changeNode (id : NodeId) | noSuchNode
  | whoami | account | saveConfig
  | container (name : JsString) (action : ContainerAction)
  | lanRefused | remoteRefused | badName | badPath
  | unknownControl | dictionary | page
  deriving DecidableEq

namespace WebRequest

/-- `(req.url || "/").split("?")[0]` -/
def pathname (r : WebRequest) : JsString := if r.url = [] then js "/" else r.url.takeWhile (· != 0x3f)

def isPost (r : WebRequest) : Bool := r.method == js "POST"

def isGet (r : WebRequest) : Bool := r.method == js "GET"

/-- Does the request change something by its address? -/
def stateChange (r : WebRequest) : Bool :=
  r.isPost && r.url != [] &&
    (r.url == js "/__auth/login" || r.url == js "/__auth/logout" || (js "/__ctl/").isPrefixOf r.url ||
      r.url.takeWhile (· != 0x3f) == js "/link")

end WebRequest

namespace HubSite

variable (s : HubSite)

/-- `lastHeaderValue` -/
def lastHeaderValue (v : JsString) : JsString := s.lowerCase (trim (((split 0x2c v).getLast?).getD []))

/-- `expectedHosts` -/
def expectedHosts (v : Visitor) (r : WebRequest) : List JsString :=
  ((r.host.filter (· != [])).map s.lowerCase).toList ++
  (if v.peerTrusted then ((r.forwardedHost.filter (· != [])).map s.lastHeaderValue).toList else []) ++
  ((s.publicUrl.filter (· != [])).bind fun u => (s.hostOf u).map s.lowerCase).toList

/-- `originAllowed` -/
def originAllowed (v : Visitor) (r : WebRequest) : Bool :=
  match r.origin with
  | none => false
  | some origin =>
    if origin = [] ∨ origin = js "null" then false
    else match s.hostOf origin with
      | none => false
      | some host => s.lowerCase host != [] && (s.expectedHosts v r).contains (s.lowerCase host)

end HubSite

/-- `PUBLIC_FILES` -/
def PUBLIC_FILES : List JsString :=
  [js "/manifest.webmanifest", js "/icons/icon-192.png", js "/icons/icon-512.png", js "/icons/icon-maskable-512.png"]

/-- `SAFE_NAME`: `/^[a-zA-Z0-9][a-zA-Z0-9_.-]{0,80}$/` -/
def isSafeName : JsString → Bool
  | [] => false
  | u :: s =>
    let alnum := fun u => unitIn 'a' 'z' u || unitIn 'A' 'Z' u || unitIn '0' '9' u
    alnum u && s.length ≤ 80 && s.all fun u => alnum u || u == 0x5f || u == 0x2e || u == 0x2d

/-- `/^\/__ctl\/node\/([a-z2-7]{12})(\/revoke)?$/`: the node, and whether it is to be revoked. -/
def nodePath (pathname : JsString) : Option (NodeId × Bool) :=
  if (js "/__ctl/node/").isPrefixOf pathname then
    let rest := pathname.drop (js "/__ctl/node/").length
    if hid : isNodeId (rest.take 12) = true then
      if rest.drop 12 = [] then some (⟨rest.take 12, hid⟩, false)
      else if rest.drop 12 = js "/revoke" then some (⟨rest.take 12, hid⟩, true)
      else none
    else none
  else none

def containerAction (s : JsString) : Option ContainerAction :=
  if s = js "restart" then some .restart
  else if s = js "start" then some .start
  else if s = js "stop" then some .stop
  else if s = js "logs" then some .logs
  else none

/-- `/^\/__ctl\/container\/([^/]+)\/(restart|start|stop|logs)$/` -/
def containerPath (pathname : JsString) : Option (JsString × ContainerAction) :=
  if (js "/__ctl/container/").isPrefixOf pathname then
    match split 0x2f (pathname.drop (js "/__ctl/container/").length) with
    | [name, action] => if name = [] then none else (containerAction action).map fun a => (name, a)
    | _ => none
  else none

example : nodePath (js "/__ctl/node/abcdefghijk2/revoke") = some (⟨js "abcdefghijk2", by decide⟩, true) ∧
    containerPath (js "/__ctl/container/web/restart") = some (js "web", .restart) ∧
    containerPath (js "/__ctl/container/a/b/stop") = none := by decide

namespace HubSite

variable (s : HubSite)

/-- A container's route: the hub's own host, the LAN, a plain name; only its log may be read with a GET. -/
def containerRoute (v : Visitor) (r : WebRequest) (name : JsString) (action : ContainerAction) : Handler :=
  if (r.node.filter (· != [])).any fun target => s.localId.map Subtype.val != some target then .remoteRefused
  else if s.lanOnly && !v.whitelisted then .lanRefused
  else match decodeURIComponent name with
    | none => .badPath
    | some name =>
      if !isSafeName name then .badName
      else if action = .logs then .container name .logs
      else if !r.isPost then .postOnly
      else .container name action

/-- A node's route: a POST that revokes it, LAN only, or changes it. -/
def nodeRoute (v : Visitor) (id : NodeId) (revokes : Bool) : Handler :=
  if !s.listed id then .noSuchNode
  else if revokes then if s.lanOnly && !v.whitelisted then .lanRefused else .revoke id
  else .changeNode id

/-- The control endpoints. -/
def control (v : Visitor) (r : WebRequest) : Handler :=
  if !v.authed then .loginRequired
  else if r.isPost && r.pathname == js "/__ctl/refresh" then .refresh
  else if r.isGet && r.pathname == js "/__ctl/alerts" then .alerts
  else if r.isPost && r.pathname == js "/__ctl/alerts/mute" then .mute
  else if r.isGet && r.pathname == js "/__ctl/alerts/rules" then .rules
  else if r.isPost && r.pathname == js "/__ctl/alerts/rules" then .saveRules
  else if r.isGet && r.pathname == js "/__ctl/alerts/channels" then .channels
  else if r.isPost && r.pathname == js "/__ctl/alerts/channels" then .saveChannels
  else if r.isPost && r.pathname == js "/__ctl/alerts/channels/test" then .testChannel
  else if r.isGet && r.pathname == js "/__ctl/push" then .pushDevices
  else if r.isPost && r.pathname == js "/__ctl/push/unsubscribe" then .unsubscribe
  else if r.isPost && r.pathname == js "/__ctl/push/subscribe" then .subscribe
  else if r.isGet && r.pathname == js "/__ctl/history" then .history
  else if r.isGet && r.pathname == js "/__ctl/nodes" then .fleet
  else match nodePath r.pathname with
    | some (id, revokes) =>
      if r.isGet && !revokes then .nodeView id
      else if r.isPost then s.nodeRoute v id revokes
      else .unknownControl
    | none =>
      if r.url = js "/__ctl/whoami" then .whoami
      else if r.isPost && r.url == js "/__ctl/account" then .account
      else if r.isPost && r.url == js "/__ctl/config" then .saveConfig
      else match containerPath r.pathname with
        | some (name, action) => s.containerRoute v r name action
        | none => .unknownControl

/-- `handle` -/
def handle (v : Visitor) (r : WebRequest) : Handler :=
  if (js "/api/v1/link/").isPrefixOf r.url then .linkApi
  else if (js "/api/v1/").isPrefixOf r.url then .agentApi
  else if !v.whitelisted && v.banned then .bannedPage
  else if r.url = js "/__auth/health" then .health
  else if r.stateChange && !s.originAllowed v r then .crossOrigin
  else if r.isPost && r.url == js "/__auth/login" then .login
  else if r.url = js "/__auth/logout" then if r.isPost then .logout else .postOnly
  else if r.isGet && PUBLIC_FILES.contains r.pathname then .publicFile
  else if r.pathname = js "/link" then
    if v.authed then .linkPage else if r.isPost then .loginRequired else .loginPage
  else if v.authed && r.isGet && r.pathname == js "/config.json" then .settings
  else if v.authed && r.isGet && r.pathname == js "/data.json" then .snapshot
  else if (js "/__ctl/").isPrefixOf r.url then s.control v r
  else if v.authed && r.pathname == js "/js/i18n.js" then .dictionary
  else if v.authed then .page
  else .loginPage

end HubSite

/-! ### What the routes guard -/

namespace Handler

/-- Does the handler answer to a session only? -/
def needsSession : Handler → Bool
  | linkApi | agentApi | bannedPage | health | crossOrigin | login | logout | postOnly | publicFile | loginRequired
  | loginPage => false
  | _ => true

/-- Does the handler change the hub's state, its host or its nodes? -/
def changes : Handler → Bool
  | login | logout | refresh | mute | saveRules | saveChannels | testChannel | subscribe | unsubscribe | revoke _
  | changeNode _ | account | saveConfig => true
  | container _ action => action != .logs
  | _ => false

/-- Is the handler for the LAN only, where the hub is set up so? -/
def needsLan : Handler → Bool
  | revoke _ | container _ _ => true
  | _ => false

/-- The interfaces with an authentication of their own. -/
def agentSide : Handler → Bool
  | linkApi | agentApi => true
  | _ => false

end Handler

/-- What holds of a request before its handler begins. -/
structure Guarded (s : HubSite) (v : Visitor) (r : WebRequest) (h : Handler) : Prop where
  session : h.needsSession = true → v.authed = true
  origin : h.changes = true → r.isPost = true ∧ s.originAllowed v r = true
  approval : h = .linkPage → r.isPost = true → s.originAllowed v r = true
  lan : h.needsLan = true → s.lanOnly = false ∨ v.whitelisted = true
  banned : v.banned = true → v.whitelisted = false → h.agentSide = true ∨ h = .bannedPage
  host : ∀ name action, h = .container name action →
    isSafeName name = true ∧ ∀ target, r.node = some target → target ≠ [] → s.localId.map Subtype.val = some target
  listed : ∀ id, h = .revoke id ∨ h = .changeNode id → s.listed id = true

namespace Guarded

variable {s : HubSite} {v : Visitor} {r : WebRequest}

private theorem ite {p : Prop} [Decidable p] {h h' : Handler} (ht : p → Guarded s v r h) (hf : ¬ p → Guarded s v r h') :
    Guarded s v r (if p then h else h') := by
  split
  · exact ht ‹_›
  · exact hf ‹_›

/-- A handler that only shows something, to a visitor who is not banned. -/
theorem view {h : Handler} (hban : ¬ (v.whitelisted = false ∧ v.banned = true))
    (hplain : h.changes = false ∧ h.needsLan = false ∧ h ≠ .linkPage)
    (hsession : h.needsSession = true → v.authed = true) : Guarded s v r h where
  session := hsession
  origin hc := absurd hc (by simp [hplain.1])
  approval hl := absurd hl hplain.2.2
  lan hl := absurd hl (by simp [hplain.2.1])
  banned hb hw := absurd ⟨hw, hb⟩ hban
  host name action he := by
    subst he
    exact absurd hplain.2.1 (by simp [Handler.needsLan])
  listed id he := by
    rcases he with rfl | rfl
    · exact absurd hplain.1 (by simp [Handler.changes])
    · exact absurd hplain.1 (by simp [Handler.changes])

/-- A handler that changes the hub with a POST of its own page. -/
theorem change {h : Handler} (hban : ¬ (v.whitelisted = false ∧ v.banned = true))
    (hplain : h.needsLan = false ∧ h ≠ .linkPage ∧ ∀ id, h ≠ .changeNode id)
    (hsession : h.needsSession = true → v.authed = true)
    (hpost : r.isPost = true ∧ s.originAllowed v r = true) : Guarded s v r h where
  session := hsession
  origin _ := hpost
  approval hl := absurd hl hplain.2.1
  lan hl := absurd hl (by simp [hplain.1])
  banned hb hw := absurd ⟨hw, hb⟩ hban
  host name action he := by
    subst he
    exact absurd hplain.1 (by simp [Handler.needsLan])
  listed id he := by
    rcases he with rfl | rfl
    · exact absurd hplain.1 (by simp [Handler.needsLan])
    · exact absurd rfl (hplain.2.2 id)

end Guarded

namespace HubSite

variable {s : HubSite} {v : Visitor} {r : WebRequest}

private theorem guarded_nodeRoute (hban : ¬ (v.whitelisted = false ∧ v.banned = true)) (hauthed : v.authed = true)
    (hpost : r.isPost = true ∧ s.originAllowed v r = true) (id : NodeId) (revokes : Bool) :
    Guarded s v r (s.nodeRoute v id revokes) := by
  refine .ite (fun _ => .view hban (by decide) fun _ => hauthed) fun hlisted => ?_
  have hlisted : s.listed id = true := by simpa using hlisted
  refine .ite (fun _ => .ite (fun _ => .view hban (by decide) fun _ => hauthed) fun hlan => ?_) fun _ => ?_
  · refine ⟨fun _ => hauthed, fun _ => hpost, fun h => (by cases h), fun _ => ?_, fun hb hw => absurd ⟨hw, hb⟩ hban, ?_, ?_⟩
    · by_cases hl : s.lanOnly = true
      · exact .inr (by simpa [hl] using hlan)
      · exact .inl (by simpa using hl)
    · intro name action h
      cases h
    · rintro id' (h | h)
      · cases h
        exact hlisted
      · cases h
  · refine ⟨fun _ => hauthed, fun _ => hpost, fun h => (by cases h), fun h => (by cases h),
      fun hb hw => absurd ⟨hw, hb⟩ hban, ?_, ?_⟩
    · intro name action h
      cases h
    · rintro id' (h | h)
      · cases h
      · cases h
        exact hlisted

private theorem guarded_containerRoute (hban : ¬ (v.whitelisted = false ∧ v.banned = true)) (hauthed : v.authed = true)
    (horigin : r.isPost = true → s.originAllowed v r = true) (name : JsString) (action : ContainerAction) :
    Guarded s v r (s.containerRoute v r name action) := by
  refine .ite (fun _ => .view hban (by decide) (fun _ => hauthed)) fun htarget => ?_
  refine .ite (fun _ => .view hban (by decide) (fun _ => hauthed)) fun hlan => ?_
  -- no other node is named, and the visitor is in the LAN where that is asked for
  have htarget : ∀ target, r.node = some target → target ≠ [] → s.localId.map Subtype.val = some target := by
    intro target hnode hne
    by_contra hcon
    refine htarget (Option.any_eq_true _ _ |>.2 ⟨target, ?_, by simpa using hcon⟩)
    rw [hnode, Option.filter_some, if_pos (by simpa using hne)]
  have hlan : s.lanOnly = false ∨ v.whitelisted = true := by
    by_cases hl : s.lanOnly = true
    · exact .inr (by simpa [hl] using hlan)
    · exact .inl (by simpa using hl)
  cases decodeURIComponent name with
  | none => exact @Guarded.view s v r .badPath hban (by decide) fun _ => hauthed
  | some name =>
    dsimp only
    refine .ite (fun _ => .view hban (by decide) (fun _ => hauthed)) fun hsafe => ?_
    have hsafe : isSafeName name = true := by simpa using hsafe
    have hcontainer : ∀ action, (action = .logs ∨ r.isPost = true) → Guarded s v r (.container name action) := by
      intro action ha
      refine ⟨fun _ => hauthed, fun hc => ?_, fun h => (by cases h), fun _ => hlan, fun hb hw => absurd ⟨hw, hb⟩ hban, ?_, ?_⟩
      · rcases ha with rfl | hpost
        · exact absurd hc (by simp [Handler.changes])
        · exact ⟨hpost, horigin hpost⟩
      · intro name' action' h
        cases h
        exact ⟨hsafe, htarget⟩
      · rintro id (h | h) <;> cases h
    refine .ite (fun _ => hcontainer .logs (.inl rfl)) fun _ => ?_
    refine .ite (fun _ => .view hban (by decide) (fun h => by cases h)) fun hpost => ?_
    exact hcontainer action (.inr (by simpa using hpost))

private theorem guarded_control (hban : ¬ (v.whitelisted = false ∧ v.banned = true))
    (horigin : r.isPost = true → s.originAllowed v r = true) : Guarded s v r (s.control v r) := by
  refine .ite (fun _ => .view hban (by decide) fun h => (by cases h)) fun hauthed => ?_
  have hauthed : v.authed = true := by simpa using hauthed
  -- a handler of a GET shows, one of a POST changes
  have hview : ∀ h : Handler, h.changes = false ∧ h.needsLan = false ∧ h ≠ .linkPage → Guarded s v r h :=
    fun h hplain => .view hban hplain fun _ => hauthed
  have hchange : ∀ (b : Bool) (h : Handler), h.needsLan = false ∧ h ≠ .linkPage ∧ (∀ id, h ≠ .changeNode id) →
      (r.isPost && b) = true → Guarded s v r h := by
    intro b h hplain hpost
    rw [Bool.and_eq_true] at hpost
    exact .change hban hplain (fun _ => hauthed) ⟨hpost.1, horigin hpost.1⟩
  refine .ite (fun h => hchange _ _ ⟨rfl, nofun, nofun⟩ h) fun _ => ?_
  refine .ite (fun _ => hview _ (by decide)) fun _ => ?_
  refine .ite (fun h => hchange _ _ ⟨rfl, nofun, nofun⟩ h) fun _ => ?_
  refine .ite (fun _ => hview _ (by decide)) fun _ => ?_
  refine .ite (fun h => hchange _ _ ⟨rfl, nofun, nofun⟩ h) fun _ => ?_
  refine .ite (fun _ => hview _ (by decide)) fun _ => ?_
  refine .ite (fun h => hchange _ _ ⟨rfl, nofun, nofun⟩ h) fun _ => ?_
  refine .ite (fun h => hchange _ _ ⟨rfl, nofun, nofun⟩ h) fun _ => ?_
  refine .ite (fun _ => hview _ (by decide)) fun _ => ?_
  refine .ite (fun h => hchange _ _ ⟨rfl, nofun, nofun⟩ h) fun _ => ?_
  refine .ite (fun h => hchange _ _ ⟨rfl, nofun, nofun⟩ h) fun _ => ?_
  refine .ite (fun _ => hview _ (by decide)) fun _ => ?_
  refine .ite (fun _ => hview _ (by decide)) fun _ => ?_
  cases nodePath r.pathname with
  | some path =>
    obtain ⟨id, revokes⟩ := path
    refine .ite (fun _ => hview (.nodeView id) ⟨rfl, rfl, nofun⟩) fun _ => ?_
    refine .ite (fun hpost => ?_) fun _ => hview .unknownControl (by decide)
    exact guarded_nodeRoute hban hauthed ⟨hpost, horigin hpost⟩ id revokes
  | none =>
    refine .ite (fun _ => hview .whoami (by decide)) fun _ => ?_
    refine .ite (fun h => hchange _ .account ⟨rfl, nofun, nofun⟩ h) fun _ => ?_
    refine .ite (fun h => hchange _ .saveConfig ⟨rfl, nofun, nofun⟩ h) fun _ => ?_
    cases containerPath r.pathname with
    | some path => exact guarded_containerRoute hban hauthed horigin path.1 path.2
    | none => exact hview .unknownControl (by decide)

/-- Every request comes to its handler guarded: what needs a session has one, what changes something is a POST of the
hub's own page, what is for the LAN comes from it, a banned visitor gets no further than the ban, and a container is
named by a plain name on the hub's own host. -/
theorem guarded_handle (s : HubSite) (v : Visitor) (r : WebRequest) : Guarded s v r (s.handle v r) := by
  have hagent : ∀ h : Handler, h.agentSide = true → Guarded s v r h := by
    intro h hside
    cases h with
    | linkApi => exact ⟨nofun, nofun, nofun, nofun, fun _ _ => .inl rfl, nofun, nofun⟩
    | agentApi => exact ⟨nofun, nofun, nofun, nofun, fun _ _ => .inl rfl, nofun, nofun⟩
    | _ => cases hside
  refine .ite (fun _ => hagent .linkApi rfl) fun _ => ?_
  refine .ite (fun _ => hagent .agentApi rfl) fun _ => ?_
  refine .ite (fun _ => ?_) fun hfree => ?_
  · exact ⟨nofun, nofun, nofun, nofun, fun _ _ => .inr rfl, nofun, nofun⟩
  have hban : ¬ (v.whitelisted = false ∧ v.banned = true) := by simpa using hfree
  have hopen : ∀ h : Handler, h.changes = false ∧ h.needsLan = false ∧ h ≠ .linkPage → h.needsSession = false →
      Guarded s v r h := fun h hplain hno => .view hban hplain fun hs => absurd hs (by simp [hno])
  refine .ite (fun _ => hopen .health (by decide) rfl) fun _ => ?_
  refine .ite (fun _ => hopen .crossOrigin (by decide) rfl) fun hcross => ?_
  have horigin : r.stateChange = true → s.originAllowed v r = true := by
    intro hchange
    simpa [hchange] using hcross
  refine .ite (fun h => ?_) fun _ => ?_
  · simp only [Bool.and_eq_true, beq_iff_eq] at h
    refine .change hban ⟨rfl, nofun, nofun⟩ nofun ⟨h.1, horigin ?_⟩
    simp only [WebRequest.stateChange, h.1, h.2]
    decide
  refine .ite (fun hurl => .ite (fun hpost => ?_) fun _ => hopen .postOnly (by decide) rfl) fun _ => ?_
  · refine .change hban ⟨rfl, nofun, nofun⟩ nofun ⟨hpost, horigin ?_⟩
    simp only [WebRequest.stateChange, hpost, hurl]
    decide
  refine .ite (fun _ => hopen .publicFile (by decide) rfl) fun _ => ?_
  refine .ite (fun hlink => ?_) fun _ => ?_
  · refine .ite (fun hauthed => ?_) fun _ => .ite (fun _ => hopen .loginRequired (by decide) rfl)
      fun _ => hopen .loginPage (by decide) rfl
    have happroval : r.isPost = true → s.originAllowed v r = true := by
      intro hpost
      refine horigin ?_
      have hne : r.url ≠ [] := by
        intro hnil
        rw [WebRequest.pathname, if_pos hnil] at hlink
        exact absurd hlink (by decide)
      rw [WebRequest.pathname, if_neg hne] at hlink
      simp [WebRequest.stateChange, hpost, hne, hlink]
    exact ⟨fun _ => hauthed, nofun, fun _ => happroval, nofun, fun hb hw => absurd ⟨hw, hb⟩ hban, nofun, nofun⟩
  refine .ite (fun h => ?_) fun _ => ?_
  · simp only [Bool.and_eq_true] at h
    exact .view hban (by decide) fun _ => h.1.1
  refine .ite (fun h => ?_) fun _ => ?_
  · simp only [Bool.and_eq_true] at h
    exact .view hban (by decide) fun _ => h.1.1
  refine .ite (fun hctl => guarded_control hban fun hpost => horigin ?_) fun _ => ?_
  · have hne : r.url ≠ [] := by
      intro hnil
      rw [hnil] at hctl
      exact absurd hctl (by decide)
    simp [WebRequest.stateChange, hpost, hne, hctl]
  refine .ite (fun h => ?_) fun _ => ?_
  · rw [Bool.and_eq_true] at h
    exact .view hban (by decide) fun _ => h.1
  exact .ite (fun h => .view hban (by decide) fun _ => h) fun _ => hopen .loginPage (by decide) rfl

end HubSite

end Servitals
