import OpenshiftConsole.Library.Fields
import OpenshiftConsole.Library.Lines

/-!
# The requests of the DNS backend

What `lookupHandler` and `dnsSettingsHandler` take from a request before they look anything up:
the resolver and the hostnames, trimmed. A resolver that is the cluster's own is recognised by
its address or its name (`isInternalClusterResolver`).
-/

namespace OpenshiftConsole.ExternalDns

open OpenshiftConsole.Library (isSpace)
open OpenshiftConsole.Library.Lines (Text)

/-- What the backend is configured with, or finds where it runs. -/
structure Config where
  /-- `EXTERNAL_DNS_RESOLVER`, or `1.1.1.1`. -/
  defaultResolver : Text
  /-- The nameservers of `/etc/resolv.conf`. -/
  internalResolverIPs : List Text
  /-- `unicode.ToLower` -/
  toLower : Char → Char

/-- A question: what is to be looked up, and where. -/
structure Pair where
  resolver : Text
  hostname : Text
deriving DecidableEq

/-! ### Texts -/

/-- `strings.TrimSpace` -/
def trimSpace (s : Text) : Text := ((s.dropWhile isSpace).reverse.dropWhile isSpace).reverse

/-- `strings.Contains` -/
def contains (s needle : Text) : Bool := s.tails.any (needle.isPrefixOf ·)

/-- What stands before the last colon, and what after it. -/
def cutLastColon (s : Text) : Option (Text × Text) :=
  if ':' ∈ s then
    let port := (s.reverse.takeWhile (· ≠ ':')).reverse
    some (s.take (s.length - port.length - 1), port)
  else none

/-- The host that `net.SplitHostPort` gives, if it gives no error. -/
def splitHostPort (s : Text) : Option Text :=
  match cutLastColon s with
  | none => none
  | some (host, port) =>
    if s.head? = some '[' then
      let inner := (s.drop 1).takeWhile (· ≠ ']')
      -- the first `]` stands right before the last colon
      if host = '[' :: inner ++ [']'] ∧ '[' ∉ inner ++ port ∧ ']' ∉ port then some inner else none
    else if ':' ∈ host ∨ '[' ∈ s ∨ ']' ∈ s then none
    else some host

/-- `internalResolverSuffixes` -/
def internalResolverSuffixes : List Text := [".svc".toList, ".svc.cluster.local".toList]

/-- `internalResolverNeedles` -/
def internalResolverNeedles : List Text := ["kube-dns".toList, "coredns".toList]

/-- `strings.TrimSuffix(s, ".")` -/
def trimDot (s : Text) : Text := if s.getLast? = some '.' then s.dropLast else s

variable (cfg : Config)

/-- `isInternalClusterResolver` -/
def isInternalClusterResolver (resolver : Text) : Bool :=
  let host := (trimDot ((splitHostPort resolver).getD resolver)).map cfg.toLower
  host ∈ cfg.internalResolverIPs ∨ internalResolverSuffixes.any (·.isSuffixOf host) ∨
    internalResolverNeedles.any (contains host)

/-! ### Requests -/

/-- A request: its method, and the values of its query parameters. -/
structure HttpRequest where
  method : Text
  resolver : List Text
  hostname : List Text

/-- The status and the text of a refusal. -/
structure HttpError where
  status : ℕ
  text : Text
deriving DecidableEq

/-- `defaultResolverSentinel` -/
def defaultResolverSentinel : Text := "default".toList

/-- `resolverFromQuery` -/
def resolverFromQuery (r : HttpRequest) : Text :=
  let v := trimSpace (r.resolver.headD [])
  if v ≠ [] ∧ v ≠ defaultResolverSentinel then v else cfg.defaultResolver

/-- The hostnames that were not seen yet, trimmed. -/
def newHostnames (seen : List Text) : List Text → List Text
  | [] => []
  | value :: values =>
    let hostname := trimSpace value
    if hostname = [] ∨ hostname ∈ seen then newHostnames seen values
    else hostname :: newHostnames (hostname :: seen) values

/-- `hostnamesFromQuery` -/
def hostnamesFromQuery (r : HttpRequest) : List Text := newHostnames [] r.hostname

/-- What `lookupHandler` looks up. -/
def lookupHandler (r : HttpRequest) : Except HttpError (List Pair) :=
  if r.method ≠ "GET".toList then .error ⟨405, "method not allowed".toList⟩
  else if hostnamesFromQuery r = [] then
    .error ⟨400, "at least one hostname query parameter is required".toList⟩
  else .ok ((hostnamesFromQuery r).map fun hostname => ⟨resolverFromQuery cfg r, hostname⟩)

/-- What `dnsSettingsHandler` looks up. -/
def dnsSettingsHandler (r : HttpRequest) : Except HttpError Pair :=
  if r.method ≠ "GET".toList then .error ⟨405, "method not allowed".toList⟩
  else
    let hostname := trimSpace (r.hostname.headD [])
    if hostname = [] then .error ⟨400, "hostname is required".toList⟩
    else .ok ⟨resolverFromQuery cfg r, hostname⟩

/-- The questions that a handler accepts. -/
def Accepted (p : Pair) : Prop :=
  (∃ r pairs, lookupHandler cfg r = .ok pairs ∧ p ∈ pairs) ∨ ∃ r, dnsSettingsHandler cfg r = .ok p

/-- `cacheKey` -/
def cacheKey (p : Pair) : Text := p.resolver ++ '|' :: p.hostname

end OpenshiftConsole.ExternalDns
