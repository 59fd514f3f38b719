import Servitals.ClientIp

/-!
# Who the client is

`createClientResolver` of `hub/lib/clientip.js`.  Forwarding headers count only when the peer is a trusted proxy, and of
`X-Forwarded-For` only the last entry, which the proxy appended itself.  Two requests of one peer that the proxies of the
configuration could not tell apart resolve to the same client (`resolves_alike`).
-/

namespace Servitals

/-- The trusted proxies of a configuration: a list, or one text of them. -/
inductive TrustedProxies
  | list (items : List JsString)
  | text (s : JsString)

/-- `split(/[\s,]+/)`; the empty parts that runs of separators leave here are no entries. -/
def splitItems (s : JsString) : List JsString :=
  split 0x2c (s.map fun u => if isSpace u then 0x2c else u)

def TrustedProxies.entries : TrustedProxies → List CidrEntry
  | .list items => parseCidrList items
  | .text s => parseCidrList (splitItems s)

/-- The options of `createClientResolver`. -/
structure ProxyConfig where
  trustedProxies : TrustedProxies
  proxyHeader : JsString

/-- A request: the address of its peer, and its headers by their lower case names. -/
structure ClientReq where
  remoteAddress : Option JsString
  headers : JsString → Option JsString

structure Client where
  ip : Option JsString
  peer : Option JsString
  peerTrusted : Bool
  viaProxy : Bool
  proxyOnly : Bool
  deriving DecidableEq

namespace ProxyConfig

/-- Is the configuration in the mode of the header `cf-connecting-ip`?  Any other name means `x-forwarded-for`. -/
def isCloudflare (cfg : ProxyConfig) : Bool := cfg.proxyHeader == js "cf-connecting-ip"

/-- `forwardedIp` -/
def forwardedIp (cfg : ProxyConfig) (headers : JsString → Option JsString) : Option JsString :=
  if cfg.isCloudflare then (headers (js "cf-connecting-ip")).bind normalizeIp
  else match headers (js "x-forwarded-for") with
    | none => none
    | some xff => if xff == [] then none else (split 0x2c xff).getLast?.bind normalizeIp

/-- The peer of a request, as an address. -/
def peerOf (req : ClientReq) : Option JsString := req.remoteAddress.bind normalizeIp

/-- Is the peer a trusted proxy? -/
def trustsPeer (cfg : ProxyConfig) (req : ClientReq) : Bool :=
  (peerOf req).any fun peer => matchesAny peer cfg.trustedProxies.entries

/-- `resolveClient` -/
def resolveClient (cfg : ProxyConfig) (req : ClientReq) : Client :=
  let peer := peerOf req
  if cfg.trustsPeer req then
    match cfg.forwardedIp req.headers with
    | some fwd => ⟨some fwd, peer, true, true, false⟩
    | none => ⟨peer, peer, true, false, true⟩
  else ⟨peer, peer, false, false, false⟩

end ProxyConfig

/-- `isWhitelisted` -/
def isWhitelisted (client : Client) (entries : List CidrEntry) : Bool :=
  !client.proxyOnly && client.ip.any fun ip => matchesAny ip entries

namespace ProxyConfig

/-- The last comma-separated entry of `x-forwarded-for`; an absent header is an empty one. -/
def lastEntry (headers : JsString → Option JsString) : JsString :=
  ((split 0x2c ((headers (js "x-forwarded-for")).getD [])).getLast?).getD []

private theorem getLast?_split (sep : UInt16) (s : JsString) : ∃ p, (split sep s).getLast? = some p := by
  cases h : (split sep s).getLast? with
  | none => exact absurd (List.getLast?_eq_none_iff.1 h) (split_ne_nil sep s)
  | some p => exact ⟨p, rfl⟩

/-- In the mode of `x-forwarded-for` the forwarded address is that of the last entry. -/
private theorem forwardedIp_eq {cfg : ProxyConfig} (hmode : cfg.isCloudflare = false)
    (headers : JsString → Option JsString) :
    cfg.forwardedIp headers = normalizeIp (lastEntry headers) := by
  unfold forwardedIp lastEntry
  rw [hmode, if_neg Bool.false_ne_true]
  cases headers (js "x-forwarded-for") with
  | none => rfl
  | some xff =>
    dsimp only [Option.getD_some]
    obtain ⟨p, hp⟩ := getLast?_split 0x2c xff
    split
    · rename_i hempty
      rw [beq_iff_eq.1 hempty]
      rfl
    · rw [hp]
      rfl

/-- For every configuration and two requests of one peer: a peer that is no trusted proxy resolves to the same client
whatever headers the requests carry; a trusted one, in the mode of `x-forwarded-for`, when their last entries are the
same; and without a usable last entry its client is on no whitelist. -/
theorem resolves_alike (cfg : ProxyConfig) (peer : Option JsString) (headers headers' : JsString → Option JsString)
    (entries : List CidrEntry) :
    let client := cfg.resolveClient ⟨peer, headers⟩
    let client' := cfg.resolveClient ⟨peer, headers'⟩
    (cfg.trustsPeer ⟨peer, headers⟩ = false →
        client = client' ∧ isWhitelisted client entries = isWhitelisted client' entries) ∧
      (cfg.trustsPeer ⟨peer, headers⟩ = true → cfg.isCloudflare = false →
        (lastEntry headers = lastEntry headers' →
          client = client' ∧ isWhitelisted client entries = isWhitelisted client' entries) ∧
        (normalizeIp (lastEntry headers) = none → client.proxyOnly = true ∧ isWhitelisted client entries = false)) := by
  intro client client'
  have hsame : cfg.trustsPeer ⟨peer, headers⟩ = cfg.trustsPeer ⟨peer, headers'⟩ := rfl
  have halike : client = client' →
      client = client' ∧ isWhitelisted client entries = isWhitelisted client' entries := fun h => ⟨h, by rw [h]⟩
  refine ⟨fun huntrusted => halike ?_, fun htrusted hmode => ⟨fun hlast => halike ?_, fun hnone => ?_⟩⟩
  · show cfg.resolveClient ⟨peer, headers⟩ = cfg.resolveClient ⟨peer, headers'⟩
    unfold resolveClient
    rw [← hsame, huntrusted]
    rfl
  · show cfg.resolveClient ⟨peer, headers⟩ = cfg.resolveClient ⟨peer, headers'⟩
    unfold resolveClient
    rw [← hsame, htrusted]
    dsimp only
    rw [forwardedIp_eq hmode, forwardedIp_eq hmode, hlast]
    rfl
  · have hclient : client = ⟨peerOf ⟨peer, headers⟩, peerOf ⟨peer, headers⟩, true, false, true⟩ := by
      show cfg.resolveClient ⟨peer, headers⟩ = _
      unfold resolveClient
      rw [htrusted, if_pos rfl]
      dsimp only
      rw [forwardedIp_eq hmode, hnone]
    rw [hclient]
    exact ⟨rfl, rfl⟩

private def oneProxy : ProxyConfig := ⟨.text (js "127.0.0.1, 10.0.0.1"), js "x-forwarded-for"⟩

private def forwarded (s : JsString) : JsString → Option JsString :=
  fun name => if name = js "x-forwarded-for" then some s else none

/-- What a client sends through the proxy itself does not change who it is. -/
theorem forged_entry_ignored :
    oneProxy.resolveClient ⟨some (js "10.0.0.1"), forwarded (js "192.168.1.5, 203.0.113.9")⟩ =
      oneProxy.resolveClient ⟨some (js "10.0.0.1"), forwarded (js "203.0.113.77, 203.0.113.9")⟩ :=
  (((resolves_alike oneProxy (some (js "10.0.0.1")) (forwarded (js "192.168.1.5, 203.0.113.9"))
    (forwarded (js "203.0.113.77, 203.0.113.9")) []).2 (by decide +kernel) (by decide +kernel)).1 (by decide +kernel)).1

end ProxyConfig

end Servitals
