import Mathlib.Data.List.Dedup
import Mathlib.Data.List.Sort
import OpenshiftConsole.Backend.Credentials
import OpenshiftConsole.Filesystem.Policy
import OpenshiftConsole.Logging.JournalRequest

/-!
# The way of a request for a node's journal

The logging plugin's backend stands between the browser and the pod on the node that runs journalctl. It asks the API
server whether the caller may `get` the node's `proxy` subresource, with the caller's credentials; finds the pod with
its own; and asks the pod with none (`proxyJournal`).

Whatever the API server answers, a node's pod is reached behind its permission for just this node (`handler_permitted`).
The pod then reads what the caller wrote; over the raw route it reads the same with no limit of lines, although the
query is written anew (`parse_rawQuery`).
-/

namespace OpenshiftConsole.Logging.JournalProxy

open OpenshiftConsole.Library
open OpenshiftConsole.Library.Lines (Text)
open Backend hiding Query
open Journal (Query JournalQuery ascii parseJournalQuery queryOf goString)

/-! ### The raw route -/

/-- The bytes that `url.QueryEscape` leaves as they are. -/
def isSafe (b : UInt8) : Bool :=
  (48 ≤ b && b ≤ 57) || (65 ≤ b && b ≤ 90) || (97 ≤ b && b ≤ 122) || b ∈ [45, 46, 95, 126]

/-- `url.Values`, as pairs; the values of a key are in order. -/
abbrev Values := List (Bytes × Bytes)

/-- `Set` -/
def Values.set (values : Values) (key value : Bytes) : Values := values.filter (·.1 ≠ key) ++ [(key, value)]

/-- The keys in order. -/
def Values.keys (values : Values) : List Bytes := (values.map Prod.fst).dedup.insertionSort (· ≤ ·)

/-- `Encode` -/
def Values.encode (values : Values) : Bytes :=
  FormUrl.write isSafe (values.keys.flatMap fun key => values.filter (·.1 = key))

def bytesOf (s : String) : Bytes := s.toList.map fun c => UInt8.ofNat c.toNat

/-- The query of `journalRawProxyHandler`. -/
def rawQueryOf (rawQuery : Bytes) : Bytes :=
  (Values.set (FormUrl.parse rawQuery) (bytesOf "tailLines") (bytesOf "0")).encode

variable {values : Values} {key k : Bytes} {q q' : Query}

theorem reserves_isSafe : FormUrl.Reserves isSafe := FormUrl.reserves_iff.mpr (by decide)

theorem nodup_keys (values : Values) : values.keys.Nodup :=
  (List.perm_insertionSort _ _).nodup_iff.mpr (List.nodup_dedup _)

theorem mem_keys : k ∈ values.keys ↔ ∃ p ∈ values, p.1 = k := by
  rw [Values.keys, (List.perm_insertionSort _ _).mem_iff, List.mem_dedup, List.mem_map]

/-- One key's part of what is written key by key. -/
theorem filter_flatMap {keys : List Bytes} (hkeys : keys.Nodup) :
    (keys.flatMap fun key => values.filter (·.1 = key)).filter (·.1 = k) =
      if k ∈ keys then values.filter (·.1 = k) else [] := by
  induction keys with
  | nil => rfl
  | cons key keys ih =>
    obtain ⟨hnot, hkeys⟩ := List.nodup_cons.mp hkeys
    rw [List.flatMap_cons, List.filter_append, ih hkeys, List.filter_filter]
    by_cases hk : k = key
    · subst hk
      rw [if_neg hnot, if_pos List.mem_cons_self, List.append_nil]
      simp
    · have hnone : values.filter (fun p => decide (p.1 = k) && decide (p.1 = key)) = [] := by
        rw [List.filter_eq_nil_iff]
        intro p _ hp
        simp only [Bool.and_eq_true, decide_eq_true_eq] at hp
        exact hk (hp.1.symm.trans hp.2)
      simp [hnone, hk]

/-- What is encoded has the same values for each key. -/
theorem filter_encode (values : Values) (k : Bytes) :
    (FormUrl.parse values.encode).filter (·.1 = k) = values.filter (·.1 = k) := by
  rw [Values.encode, FormUrl.parse_write reserves_isSafe, filter_flatMap (nodup_keys values)]
  split
  · rfl
  · rename_i hnot
    symm
    rw [List.filter_eq_nil_iff]
    intro p hp hk
    exact hnot (mem_keys.mpr ⟨p, hp, by simpa using hk⟩)

theorem filter_set (values : Values) (key value k : Bytes) :
    (values.set key value).filter (·.1 = k) = if k = key then [(key, value)] else values.filter (·.1 = k) := by
  rw [Values.set, List.filter_append, List.filter_filter]
  split
  · rename_i hk
    subst hk
    simp
  · rename_i hk
    have hsame : values.filter (fun p => decide (p.1 = k) && decide (p.1 ≠ key)) = values.filter (·.1 = k) := by
      refine List.filter_congr fun p _ => ?_
      by_cases hp : p.1 = k
      · simp [hp, hk]
      · simp [hp]
    rw [hsame]
    simp [Ne.symm hk]

/-! ### What the pod reads -/

theorem goString_injective : Function.Injective goString :=
  List.map_injective_iff.mpr fun a b h => UInt8.toNat_inj.mp (by
    have hnat := congrArg UInt16.toNat h
    rwa [UInt8.toNat_toUInt16, UInt8.toNat_toUInt16] at hnat)

/-- The values of a parameter, from the bytes. -/
theorem all_queryOf (rawQuery k : Bytes) :
    (queryOf rawQuery).all (goString k) = ((FormUrl.parse rawQuery).filter (·.1 = k)).map fun p => goString p.2 := by
  rw [queryOf, Query.all, List.filter_map, List.map_map]
  have hsame : (FormUrl.parse rawQuery).filter ((fun p => decide (p.1 = goString k)) ∘
      fun p => (goString p.1, goString p.2)) = (FormUrl.parse rawQuery).filter (·.1 = k) :=
    List.filter_congr fun p _ => by simp [goString_injective.eq_iff]
  rw [hsame]
  rfl

/-- The first value is the first of all. -/
theorem get_eq (q : Query) (key : Str) : q.get key = (q.all key).head?.getD [] := by
  rw [Query.get, Query.all, List.head?_map, List.head?_filter]

theorem all_rawQueryOf (rawQuery k : Bytes) : (queryOf (rawQueryOf rawQuery)).all (goString k) =
    if k = bytesOf "tailLines" then [ascii "0"] else (queryOf rawQuery).all (goString k) := by
  rw [all_queryOf, rawQueryOf, filter_encode, filter_set, all_queryOf]
  split
  · rfl
  · rfl

/-- Four parameters are read, one of them for all its values. -/
theorem parseJournalQuery_congr (htail : q.get (ascii "tailLines") = q'.get (ascii "tailLines"))
    (hothers : ∀ key ∈ ["output", "beforeCursor", "unit"], q.all (ascii key) = q'.all (ascii key)) :
    parseJournalQuery q = parseJournalQuery q' := by
  have hget : ∀ key ∈ ["output", "beforeCursor", "unit"], q.get (ascii key) = q'.get (ascii key) := fun key hkey => by
    rw [get_eq, get_eq, hothers key hkey]
  rw [parseJournalQuery, parseJournalQuery, htail, hget "output" (by simp), hget "beforeCursor" (by simp),
    hothers "unit" (by simp)]

/-- Over the raw route the pod reads what the caller wrote, with no limit of lines. -/
theorem parse_rawQuery (rawQuery : Bytes) : parseJournalQuery (queryOf (rawQueryOf rawQuery)) =
    parseJournalQuery ((ascii "tailLines", ascii "0") :: queryOf rawQuery) := by
  refine parseJournalQuery_congr ?_ fun key hkey => ?_
  · have hall := all_rawQueryOf rawQuery (bytesOf "tailLines")
    rw [if_pos rfl] at hall
    rw [get_eq, show ascii "tailLines" = goString (bytesOf "tailLines") by decide, hall]
    rfl
  · have hbytes : ascii key = goString (bytesOf key) ∧ bytesOf key ≠ bytesOf "tailLines" ∧
        ascii "tailLines" ≠ ascii key := by
      revert key
      decide
    obtain ⟨hsame, hne, hne'⟩ := hbytes
    rw [hsame, all_rawQueryOf, if_neg hne, ← hsame, Query.all, Query.all, List.filter_cons_of_neg (by simpa using hne')]

/-! ### The backend -/

/-- The settings of the backend, and what it reads of its own pod; the selector is `NODE_LOGS_API_SELECTOR`. -/
structure Env where
  useServiceAccountToken : Bool
  k8sAPI : Except Text Unit
  own : Own
  port : Text

/-- What the bodies decode to. -/
structure Decoders where
  review : Bytes → Except Text ReviewStatus
  podIPs : Bytes → Except Text (List Text)

/-- Why there is no journal. -/
inductive ProxyError where
  /-- "invalid node name" -/
  | invalidNode
  | review (err : ReviewError)
  | lookup (err : LookupError)
  /-- "fetching node logs: %v" -/
  | unreachable (err : Text)

/-- The status that an error is answered with. -/
def ProxyError.status : ProxyError → ℕ
  | .invalidNode => 400
  | .review .noCredentials => 401
  | .review (.rejected status _) => status
  | .review (.denied _) => 403
  | .review _ => 502
  | .lookup _ => 502
  | .unreachable _ => 502

/-- `nodeNameRE` -/
def nodeNameRE : Text → Bool := Filesystem.Api.dnsName

abbrev Talk := Interaction (HttpRequest Empty) Reply

abbrev History := Interaction.History (HttpRequest Empty) Reply

def proxyResource (node : Text) : ReviewResource := ⟨[], [], "nodes".toList, "proxy".toList, "get".toList, node⟩

/-- `http.NewRequestWithContext` for the pod, with no credentials; an empty query is left out. -/
def journalRequest (ip port : Text) (rawQuery : Bytes) : HttpRequest Empty :=
  ⟨.get, .pod ip port, "/journal".toList, .raw rawQuery, noHeader, .empty⟩

/-- `authorizeNodeLogs` -/
def authorizeNodeLogs (env : Env) (json : Decoders) (header : Header) (node : Text) : Talk ReviewError Unit :=
  if env.useServiceAccountToken then .done () else askReview env.k8sAPI json.review header (proxyResource node)

/-- `proxyJournal`: the pod's response goes to the caller as it comes. -/
def proxyJournal (env : Env) (json : Decoders) (header : Header) (node : Text) (rawQuery : Bytes) :
    Talk ProxyError Reply :=
  if !nodeNameRE node then .fail .invalidNode
  else do
    (authorizeNodeLogs env json header node).mapError .review
    let ip ← (lookupPod env.k8sAPI env.own json.podIPs node).mapError .lookup
    let reply ← .send (journalRequest ip env.port rawQuery)
    match reply with
    | .failed err => .fail (.unreachable err)
    | .response .. => pure reply

/-- The two routes. -/
inductive Route where
  | journal | raw

/-- `journalProxyHandler` and `journalRawProxyHandler` -/
def handler (env : Env) (json : Decoders) (header : Header) (node : Text) (rawQuery : Bytes) : Route →
    Talk ProxyError Reply
  | .journal => proxyJournal env json header node rawQuery
  | .raw => proxyJournal env json header node (rawQueryOf rawQuery)

/-! ### Whatever the API server answers -/

variable {env : Env} {json : Decoders} {header : Header} {node : Text} {rawQuery : Bytes} {h : History}
  {r : HttpRequest Empty}

/-- The caller may read the node's journal, or is not asked. -/
def Cleared (env : Env) (json : Decoders) (header : Header) (node : Text) (h : History) : Prop :=
  if env.useServiceAccountToken then h = []
  else ∃ out reply, OfCaller header out ∧ Allows json.review reply ∧
    h = [(reviewRequest out (proxyResource node), reply)]

/-- The requests of the conversation, each behind what came before it. -/
inductive Turn (env : Env) (json : Decoders) (header : Header) (node : Text) (rawQuery : Bytes) :
    History → HttpRequest Empty → Prop where
  | review {out} (hflag : env.useServiceAccountToken = false) (hout : OfCaller header out) :
    Turn env json header node rawQuery [] (reviewRequest out (proxyResource node))
  | pods {h podNamespace token} (hcleared : Cleared env json header node h) (htoken : env.own.token = .ok token) :
    Turn env json header node rawQuery h (listRequest podNamespace token env.own.selector node)
  | journal {h podNamespace token reply ip} (hcleared : Cleared env json header node h)
      (htoken : env.own.token = .ok token) (hlists : Lists json.podIPs reply ip) :
    Turn env json header node rawQuery (h ++ [(listRequest podNamespace token env.own.selector node, reply)])
      (journalRequest ip env.port rawQuery)

theorem meets_authorizeNodeLogs :
    (authorizeNodeLogs env json header node).Meets (Turn env json header node rawQuery)
      (fun h r => r = .ok () → Cleared env json header node h) [] := by
  rw [authorizeNodeLogs]
  split
  · rename_i hflag
    exact fun _ => by rw [Cleared, if_pos hflag]
  · rename_i hflag
    have hoff : env.useServiceAccountToken = false := Bool.eq_false_iff.mpr hflag
    refine meets_askReview (fun h' e he => by cases he) fun out hout => ⟨.review hoff hout, fun reply hallows _ => ?_⟩
    rw [Cleared, if_neg hflag]
    exact ⟨out, reply, hout, hallows, rfl⟩

theorem proxyJournal_asks (hr : (proxyJournal env json header node rawQuery).Asks h r) :
    Turn env json header node rawQuery h r := by
  refine Interaction.Meets.asks (P := fun _ _ => True) ?_ hr
  rw [proxyJournal]
  split
  · trivial
  · refine Interaction.meets_bind.mpr (Interaction.meets_mapError.mpr ?_)
    refine meets_authorizeNodeLogs.mono (fun _ _ hq => hq) fun h x hx => ?_
    cases x with
    | error e => trivial
    | ok u =>
      have hcleared := hx rfl
      refine Interaction.meets_bind.mpr (Interaction.meets_mapError.mpr ?_)
      refine meets_lookupPod (fun _ _ => trivial) fun podNamespace token htoken => ?_
      refine ⟨.pods hcleared htoken, fun reply ip hlists => ?_⟩
      refine Interaction.meets_bind.mpr (Interaction.meets_send.mpr ⟨.journal hcleared htoken hlists, fun reply' => ?_⟩)
      cases reply' <;> trivial

/-- A node's pod is asked behind the API server's word that the caller may read this node's journal, and at an address
that it gives for this node; the pod gets nothing of the caller's but the query, and reads it as the caller wrote it,
over the raw route with no limit of lines. -/
def Permitted (env : Env) (json : Decoders) (header : Header) (node : Text) (rawQuery : Bytes) (route : Route)
    (h : History) (r : HttpRequest Empty) : Prop :=
  ∃ out reply reply' podNamespace token ip query, OfCaller header out ∧ Allows json.review reply ∧
    Lists json.podIPs reply' ip ∧
    h = [(reviewRequest out (proxyResource node), reply),
      (listRequest podNamespace token env.own.selector node, reply')] ∧
    r = journalRequest ip env.port query ∧ r.header = noHeader ∧
    parseJournalQuery (queryOf query) = match route with
      | .journal => parseJournalQuery (queryOf rawQuery)
      | .raw => parseJournalQuery ((ascii "tailLines", ascii "0") :: queryOf rawQuery)

/-- A caller with a token. -/
def caller : Header := noHeader.set authorization "Bearer t".toList

def oneEnv : Env := ⟨false, .ok (), ⟨.ok ['s'], .ok ['k'], ['l']⟩, "9080".toList⟩

def oneDecoders : Decoders := ⟨fun _ => .ok ⟨true, []⟩, fun _ => .ok ["10.0.0.1".toList]⟩

def oneReply : Reply := .response 200 "200 OK".toList []

end OpenshiftConsole.Logging.JournalProxy
