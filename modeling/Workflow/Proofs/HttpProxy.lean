/-
Module: Workflow.Proofs.HttpProxy
Layer: Proofs
Purpose: Whether a server can tell that a request comes through a proxy. The request URI is the same
  on both ways; where the target has a port of its own that is not the default one of its scheme, the
  task behind a proxy writes the port of the proxy into `Host`.
Trusted boundary: none
Main exports: TcpTarget, UsableProxy, portOf, create_target, create_proxied, proxy_transparent
-/
import Workflow.Factory.HttpProxy
import Workflow.Proofs.HttpRedirect

namespace Workflow.Factory

open Workflow.Lib
open Workflow.Uri

/-! ### Targets and proxies -/

def schemeName (isSsl : Bool) : List Byte :=
  if isSsl then ascii "https" else ascii "http"

/-- The port of the URI, or the one that `set_port` fills in for its scheme. -/
def portOf (user : List Byte → Option UInt16) (uri : ParsedURI) : Option (List Byte) :=
  uri.port.or (uri.scheme.bind (getDefaultPort user))

def PortInRange (uri : ParsedURI) : Prop :=
  ∀ port ∈ uri.port, 0 < atoi port ∧ atoi port ≤ 65535

/-- A valid URI of the scheme `http` or `https`, in any case, whose host is not a path. -/
structure TcpTarget (isSsl : Bool) (host : List Byte) (uri : ParsedURI) : Prop where
  state : uri.state = .success
  scheme : schemeIs uri (schemeName isSsl) = true
  named : uri.host = some host
  named_ne : host ≠ []
  named_tcp : host.head? ≠ some 47
  port : PortInRange uri

/-- A valid proxy, reached at `port`. A user and password it comes with can be coded. -/
structure UsableProxy (user : List Byte → Option UInt16)
    (encodeAuth : List Byte → Except Int (List Byte)) (port : List Byte) (uri : ParsedURI) :
    Prop where
  state : uri.state = .success
  scheme : schemeIs uri (ascii "http") = true
  inRange : PortInRange uri
  port : portOf user uri = some port
  auth : ∀ userinfo ∈ uri.userinfo, userinfo ≠ [] → ∃ auth, encodeAuth userinfo = .ok auth

/-- What the server reads: the request URI and `Host`. -/
def HttpClient.request (c : HttpClient) : Option (List Byte) × Option (List Byte) :=
  (c.requestUri, c.host)

/-- The value of `Host`, with the port `text` unless `port` is the default one. -/
def hostWith (isSsl : Bool) (host : List Byte) (port : Int) (text : List Byte) : List Byte :=
  if port ≠ httpPort isSsl then host ++ 58 :: text else host

/-- The port that the URI itself gives, or the default one of HTTP. -/
def userPort (isSsl : Bool) (uri : ParsedURI) : Int :=
  uri.port.elim (httpPort isSsl) atoi

/-! ### The schemes and the ports -/

/-- A scheme is at most one of the two. -/
theorem schemeIs_http_of_https {uri : ParsedURI} (h : schemeIs uri (ascii "https") = true) :
    schemeIs uri (ascii "http") = false := by
  unfold schemeIs at h ⊢
  cases huri : uri.scheme with
  | none => rfl
  | some scheme =>
      rw [huri, Option.any_some, strcasecmpEq, beq_iff_eq] at h
      rw [Option.any_some, strcasecmpEq, h]
      decide

theorem setPort_of_inRange {user : List Byte → Option UInt16} {t : HttpTask} {uri : ParsedURI}
    (h : PortInRange uri) :
    setPort user t uri = match portOf user uri with
      | some port => (true, t, { uri with port := some port })
      | none => (false, { t with state := .taskError, error := errUriSchemeInvalid }, uri) := by
  unfold setPort portOf
  cases hport : uri.port with
  | some text =>
      have hrange := h text hport
      have huri : { uri with port := some text } = uri := by rw [← hport]
      simp only [Option.some_or, huri]
      exact if_neg (by omega)
  | none => rfl

theorem portOf_ne_nil {user : List Byte → Option UInt16} {uri : ParsedURI} {port : List Byte}
    (hrange : PortInRange uri) (h : portOf user uri = some port) : port ≠ [] := by
  unfold portOf at h
  cases hport : uri.port with
  | some text =>
      rw [hport, Option.some_or] at h
      cases h
      have hpos := (hrange port hport).1
      rintro rfl
      exact absurd hpos (by decide)
  | none =>
      rw [hport, Option.none_or] at h
      obtain ⟨scheme, -, hdefault⟩ := Option.bind_eq_some_iff.mp h
      exact (getDefaultPort_valid hdefault).1

theorem atoi_portOf {user : List Byte → Option UInt16} {uri : ParsedURI} {isSsl : Bool}
    {text port : List Byte} (htext : uri.port = some text) (h : portOf user uri = some port) :
    port = text ∧ userPort isSsl uri = atoi text := by
  rw [portOf, htext, Option.some_or] at h
  cases h
  exact ⟨rfl, by rw [userPort, htext]; rfl⟩

/-! ### The two tasks -/

variable {user : List Byte → Option UInt16} {encodeAuth : List Byte → Except Int (List Byte)}
  {isSsl : Bool} {host port : List Byte} {redirectMax : Int} {target proxy : ParsedURI}

section Init

variable {τ : Type} {get : τ → HttpClient} {put : τ → HttpClient → τ}
  {initSuccess : τ → Option (Bool × τ)} {t : τ}

/-- A valid URI whose port is known gets that port before `init_success`. -/
theorem initWithUri_port (hstate : (get t).uri.state = .success) (hrange : PortInRange (get t).uri)
    (hport : portOf user (get t).uri = some port) :
    initWithUri user get put initSuccess t =
      (initSuccess (put t { get t with uri := { (get t).uri with port := some port } })).map
        fun r => if r.1 then r.2 else put r.2 (get r.2).setEmptyRequest := by
  simp only [initWithUri, hstate, setPort_of_inRange hrange, hport, ↓reduceIte]

theorem initWithUri_refused (hstate : (get t).uri.state = .success)
    (hrange : PortInRange (get t).uri) (hport : portOf user (get t).uri = none) :
    ∃ c, initWithUri user get put initSuccess t =
      some (put (put t c) (get (put t c)).setEmptyRequest) := by
  simp only [initWithUri, hstate, setPort_of_inRange hrange, hport, Bool.false_eq_true, ↓reduceIte]
  exact ⟨_, rfl⟩

end Init

theorem initSuccess_scheme {c : HttpClient} (h : schemeIs c.uri (schemeName isSsl) = true) :
    c.initSuccess = (true, c.setRequest isSsl) := by
  rw [HttpClient.initSuccess]
  cases isSsl with
  | false => exact if_pos h
  | true =>
      have hhttps : schemeIs c.uri (ascii "https") = true := h
      rw [if_neg (by rw [schemeIs_http_of_https hhttps]; decide), if_pos hhttps]

/-- Without a proxy `Host` has the port that `set_port` has left. -/
theorem create_target (ht : TcpTarget isSsl host target) (hport : portOf user target = some port) :
    (HttpClient.create user redirectMax target).map HttpClient.request =
      some (some (requestUriOf target), some (hostWith isSsl host (atoi port) port)) := by
  have hne := portOf_ne_nil ht.port hport
  have hinit := @initWithUri_port user port HttpClient id (fun _ c => c)
    (fun c => some c.initSuccess) (HttpClient.new redirectMax target) ht.state ht.port hport
  rw [HttpClient.create, hinit, @initSuccess_scheme isSsl _ ht.scheme]
  simp only [Option.map_some, ↓reduceIte, HttpClient.request, HttpClient.setRequest,
    HttpClient.new, id_eq, ht.named, Option.getD_some, ht.named_tcp, hne, ne_eq, not_false_eq_true,
    true_and, hostWith]
  rfl

/-- A scheme that no port is known for is refused. -/
theorem create_target_refused (ht : TcpTarget isSsl host target) (hport : portOf user target = none) :
    (HttpClient.create user redirectMax target).map HttpClient.request =
      some (some (ascii "/"), some []) := by
  obtain ⟨c, hinit⟩ := @initWithUri_refused user HttpClient id (fun _ c => c)
    (fun c => some c.initSuccess) (HttpClient.new redirectMax target) ht.state ht.port hport
  rw [HttpClient.create, hinit]
  rfl

theorem setRequest_target {t : HttpProxyClient} (ht : TcpTarget isSsl host t.userUri)
    (hssl : t.isSsl = isSsl) (hport : t.uri.port = some port) (userPort : Int) :
    ∃ t', t.setRequest userPort = some t' ∧
      t'.request = (some (requestUriOf t.userUri), some (hostWith isSsl host userPort port)) := by
  have hhost : t.headerHost userPort = some (hostWith isSsl host userPort port) := by
    rw [HttpProxyClient.headerHost, hostWith, ht.named, hssl, hport]
    split <;> rfl
  rw [HttpProxyClient.setRequest, HttpProxyClient.proxyInfo, ht.named, hhost]
  exact ⟨_, rfl, rfl⟩

/-- `init_success` behind the user's scheme, for a target and a proxy that are fine. -/
theorem initUser_target {t : HttpProxyClient} (ht : TcpTarget isSsl host t.userUri)
    (hssl : t.isSsl = isSsl) (hport : t.uri.port = some port)
    (hauth : ∀ userinfo ∈ t.uri.userinfo, userinfo ≠ [] → ∃ auth, encodeAuth userinfo = .ok auth) :
    ∃ t', t.initUser encodeAuth = some (true, t') ∧
      t'.request = (some (requestUriOf t.userUri),
        some (hostWith isSsl host (userPort isSsl t.userUri) port)) := by
  have hport' : t.userUri.port.elim (httpPort t.isSsl) atoi = userPort isSsl t.userUri := by
    rw [hssl, userPort]
  have hrange : ¬(t.userUri.port.isSome ∧
      (userPort isSsl t.userUri ≤ 0 ∨ userPort isSsl t.userUri > 65535)) := by
    rintro ⟨hsome, hout⟩
    obtain ⟨text, htext⟩ := Option.isSome_iff_exists.mp hsome
    have hin := ht.port text htext
    rw [userPort, htext, Option.elim_some] at hout
    omega
  simp only [HttpProxyClient.initUser, hport', if_neg hrange]
  by_cases hempty : t.uri.userinfo.getD [] = []
  · obtain ⟨t', hset, hrequest⟩ := setRequest_target ht hssl hport (userPort isSsl t.userUri)
    rw [if_neg (not_not.mpr hempty), hset]
    exact ⟨t', rfl, hrequest⟩
  · obtain ⟨userinfo, hinfo⟩ : ∃ userinfo, t.uri.userinfo = some userinfo := by
      cases hinfo : t.uri.userinfo with
      | none => rw [hinfo] at hempty; exact absurd rfl hempty
      | some userinfo => exact ⟨userinfo, rfl⟩
    rw [hinfo, Option.getD_some] at hempty ⊢
    obtain ⟨auth, hcoded⟩ := hauth userinfo hinfo hempty
    obtain ⟨t', hset, hrequest⟩ := @setRequest_target isSsl host port
      { t with proxyAuth := auth } ht hssl hport (userPort isSsl t.userUri)
    rw [if_pos hempty, hcoded]
    simp only [hset]
    exact ⟨t', rfl, hrequest⟩

/-- Behind a proxy `Host` has the text of the proxy's port, when the target itself gives a port that
is not the default one. -/
theorem create_proxied (ht : TcpTarget isSsl host target)
    (hp : UsableProxy user encodeAuth port proxy) :
    (HttpProxyClient.create user encodeAuth redirectMax target proxy).map (·.request) =
      some (some (requestUriOf target), some (hostWith isSsl host (userPort isSsl target) port)) := by
  have hinit := @initWithUri_port user port HttpProxyClient HttpProxyClient.toHttpClient
    (fun t c => { t with toHttpClient := c }) (HttpProxyClient.initSuccess encodeAuth)
    { HttpClient.new redirectMax proxy with userUri := target, isSsl := false, proxyAuth := [] }
    hp.state hp.inRange hp.port
  rw [HttpProxyClient.create, hinit]
  have huser : ∀ t : HttpProxyClient, t.userUri = target → t.uri = { proxy with port := some port } →
      ∃ t', t.initSuccess encodeAuth = some (true, t') ∧ t'.request =
        (some (requestUriOf target), some (hostWith isSsl host (userPort isSsl target) port)) := by
    intro t huser huri
    have hscheme : schemeIs t.uri (ascii "http") = true := huri ▸ hp.scheme
    have hsuccess : t.initSuccess encodeAuth = { t with isSsl := isSsl }.initUser encodeAuth := by
      rw [HttpProxyClient.initSuccess, if_neg (not_not.mpr hscheme), huser, ht.state]
      cases isSsl with
      | false => exact if_pos ht.scheme
      | true =>
          have hhttps : schemeIs target (ascii "https") = true := ht.scheme
          exact (if_neg (by rw [schemeIs_http_of_https hhttps]; decide)).trans (if_pos hhttps)
    rw [hsuccess, ← huser]
    exact @initUser_target encodeAuth isSsl host port { t with isSsl := isSsl } (huser ▸ ht) rfl
      (by rw [huri]) (by rw [huri]; exact hp.auth)
  obtain ⟨t', hsuccess, hrequest⟩ := huser
    { HttpClient.new redirectMax { proxy with port := some port } with
      userUri := target, isSsl := false, proxyAuth := [] } rfl rfl
  exact (congrArg _ (congrArg _ hsuccess)).trans (congrArg some hrequest)

/-! ### Transparency -/

/-- The request of the task that goes straight to the target. -/
def directRequest (user : List Byte → Option UInt16) (redirectMax : Int) (target : ParsedURI) :
    Option (Option (List Byte) × Option (List Byte)) :=
  (HttpClient.create user redirectMax target).map HttpClient.request

/-- The request of the task that goes through a proxy. -/
def proxiedRequest (user : List Byte → Option UInt16)
    (encodeAuth : List Byte → Except Int (List Byte)) (redirectMax : Int)
    (target proxy : ParsedURI) : Option (Option (List Byte) × Option (List Byte)) :=
  (HttpProxyClient.create user encodeAuth redirectMax target proxy).map (·.request)

/-- The target's port is the default one of its scheme. -/
def DefaultPort (user : List Byte → Option UInt16) (isSsl : Bool) (target : ParsedURI) : Prop :=
  ∃ port, portOf user target = some port ∧ atoi port = httpPort isSsl

/-- The target gives a port whose text is also the text of the proxy's port. -/
def SamePortText (port : List Byte) (target : ParsedURI) : Prop :=
  target.port = some port

theorem hostWith_eq_host {number : Int} {text : List Byte} :
    hostWith isSsl host number text = host ↔ number = httpPort isSsl := by
  unfold hostWith
  by_cases hdefault : number = httpPort isSsl
  · simp [hdefault]
  · rw [if_pos hdefault]
    refine ⟨fun h => ?_, fun h => absurd h hdefault⟩
    have hlength := congrArg List.length h
    rw [List.length_append, List.length_cons] at hlength
    omega

theorem hostWith_inj {number : Int} {text text' : List Byte} (h : number ≠ httpPort isSsl) :
    hostWith isSsl host number text = hostWith isSsl host number text' ↔ text = text' := by
  simp [hostWith, h]

/-- The two requests are equal exactly for a default port and for equal texts of the two ports. -/
theorem proxiedRequest_eq_iff (ht : TcpTarget isSsl host target)
    (hp : UsableProxy user encodeAuth port proxy) :
    proxiedRequest user encodeAuth redirectMax target proxy = directRequest user redirectMax target ↔
      DefaultPort user isSsl target ∨ SamePortText port target := by
  rw [proxiedRequest, directRequest, create_proxied ht hp]
  cases htarget : portOf user target with
  | none =>
      have hnone : target.port = none := (Option.or_eq_none_iff.mp htarget).1
      have huser : userPort isSsl target = httpPort isSsl := by rw [userPort, hnone]; rfl
      rw [create_target_refused ht htarget, huser, hostWith_eq_host.mpr rfl]
      simp [DefaultPort, SamePortText, htarget, hnone, ht.named_ne]
  | some text =>
      have hiff : DefaultPort user isSsl target ↔ atoi text = httpPort isSsl := by
        simp [DefaultPort, htarget]
      rw [create_target ht htarget, hiff]
      simp only [Option.some.injEq, Prod.mk.injEq, true_and]
      cases hport : target.port with
      | none =>
          have huser : userPort isSsl target = httpPort isSsl := by rw [userPort, hport]; rfl
          rw [huser, hostWith_eq_host.mpr rfl, eq_comm, hostWith_eq_host]
          simp [SamePortText, hport]
      | some own =>
          obtain ⟨rfl, huser⟩ := atoi_portOf hport htarget
          rw [huser]
          by_cases hdefault : atoi text = httpPort isSsl
          · rw [hdefault, hostWith_eq_host.mpr rfl, hostWith_eq_host.mpr rfl]
            simp
          · rw [hostWith_inj hdefault]
            simp [SamePortText, hport, hdefault, eq_comm]

/-- The requests through two proxies are equal exactly for a target without a port of its own or with
the default one, and for equal texts of the proxies' ports. -/
theorem proxiedRequest_eq_proxiedRequest_iff {port' : List Byte} {proxy' : ParsedURI}
    (ht : TcpTarget isSsl host target) (hp : UsableProxy user encodeAuth port proxy)
    (hp' : UsableProxy user encodeAuth port' proxy') :
    proxiedRequest user encodeAuth redirectMax target proxy =
        proxiedRequest user encodeAuth redirectMax target proxy' ↔
      userPort isSsl target = httpPort isSsl ∨ port = port' := by
  rw [proxiedRequest, proxiedRequest, create_proxied ht hp, create_proxied ht hp']
  simp only [Option.some.injEq, Prod.mk.injEq, true_and]
  by_cases hdefault : userPort isSsl target = httpPort isSsl
  · rw [hdefault, hostWith_eq_host.mpr rfl, hostWith_eq_host.mpr rfl]
    simp
  · rw [hostWith_inj hdefault]
    simp [hdefault]

/-- `http://proxy:port`. -/
def proxyAt (port : List Byte) : ParsedURI :=
  ⟨some (ascii "http"), none, some (ascii "proxy"), some port, none, none, none, .success, 0⟩

theorem usableProxy_proxyAt (hport : 0 < atoi port ∧ atoi port ≤ 65535) :
    UsableProxy user encodeAuth port (proxyAt port) where
  state := rfl
  scheme := rfl
  inRange := fun _ htext => Option.mem_some.mp htext ▸ hport
  port := rfl
  auth := nofun

/-- A proxy is transparent for the targets with the default port of their scheme, and by chance for the
proxies on a port of the same text. Every proxy is, and all send the same, exactly for the former. -/
theorem proxy_transparent (ht : TcpTarget isSsl host target) :
    (∀ proxy port, UsableProxy user encodeAuth port proxy →
      (proxiedRequest user encodeAuth redirectMax target proxy =
          directRequest user redirectMax target ↔
        DefaultPort user isSsl target ∨ SamePortText port target)) ∧
    ((∀ proxy port, UsableProxy user encodeAuth port proxy →
        proxiedRequest user encodeAuth redirectMax target proxy =
          directRequest user redirectMax target) ↔ DefaultPort user isSsl target) ∧
    ((∀ proxy port proxy' port', UsableProxy user encodeAuth port proxy →
        UsableProxy user encodeAuth port' proxy' →
          proxiedRequest user encodeAuth redirectMax target proxy =
            proxiedRequest user encodeAuth redirectMax target proxy') ↔
      userPort isSsl target = httpPort isSsl) := by
  have hsquid : UsableProxy user encodeAuth (ascii "3128") (proxyAt (ascii "3128")) :=
    usableProxy_proxyAt (by decide)
  have halt : UsableProxy user encodeAuth (ascii "8081") (proxyAt (ascii "8081")) :=
    usableProxy_proxyAt (by decide)
  have hne : ascii "3128" ≠ ascii "8081" := by decide
  refine ⟨fun proxy port hp => proxiedRequest_eq_iff ht hp, ⟨fun hall => ?_, fun h proxy port hp =>
    (proxiedRequest_eq_iff ht hp).mpr (.inl h)⟩, ⟨fun hall => ?_, fun h proxy port proxy' port' hp hp' =>
    (proxiedRequest_eq_proxiedRequest_iff ht hp hp').mpr (.inl h)⟩⟩
  · rcases (proxiedRequest_eq_iff ht hsquid).mp (hall _ _ hsquid) with h | hsame
    · exact h
    · rcases (proxiedRequest_eq_iff ht halt).mp (hall _ _ halt) with h | hsame'
      · exact h
      · exact absurd (Option.some.inj (hsame.symm.trans hsame')) hne
  · exact ((proxiedRequest_eq_proxiedRequest_iff ht hsquid halt).mp
      (hall _ _ _ _ hsquid halt)).resolve_right hne

/-- `http://example.com:8080/`. -/
def sampleTarget : ParsedURI :=
  ⟨some (ascii "http"), none, some (ascii "example.com"), some (ascii "8080"), some (ascii "/"), none,
    none, .success, 0⟩

theorem tcpTarget_sampleTarget : TcpTarget false (ascii "example.com") sampleTarget where
  state := rfl
  scheme := by decide
  named := rfl
  named_ne := by decide
  named_tcp := by decide
  port := fun text htext => Option.mem_some.mp htext ▸ (by decide)

/-- A proxy on port 8080 is not noticed. -/
theorem proxy_transparent_sample :
    proxiedRequest (fun _ => none) (fun _ => .ok []) 5 sampleTarget (proxyAt (ascii "8080")) =
      directRequest (fun _ => none) 5 sampleTarget :=
  ((proxy_transparent tcpTarget_sampleTarget).1 (proxyAt (ascii "8080")) (ascii "8080")
    (usableProxy_proxyAt (by decide))).mpr (.inr rfl)

/-- Behind a proxy on port 3128 the server at `example.com:8080` reads `Host: example.com:3128`. -/
theorem host_of_proxy :
    ¬∀ (user : List Byte → Option UInt16) (encodeAuth : List Byte → Except Int (List Byte))
      (redirectMax : Int) (isSsl : Bool) (host port : List Byte) (target proxy : ParsedURI),
      TcpTarget isSsl host target → UsableProxy user encodeAuth port proxy →
        proxiedRequest user encodeAuth redirectMax target proxy =
          directRequest user redirectMax target := by
  intro hall
  have hequal := hall (fun _ => none) (fun _ => .ok []) 5 false (ascii "example.com") (ascii "3128")
    sampleTarget (proxyAt (ascii "3128")) tcpTarget_sampleTarget (usableProxy_proxyAt (by decide))
  exact absurd hequal (by decide +kernel)

end Workflow.Factory
