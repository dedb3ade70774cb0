import LoopzToken.Lib.ServeMux

/-!
# LoopzToken.Billing.Routes

The gateway's billing client and the routes of the billing server. The client
builds a path by concatenation, the server gets the id back by matching a
segment of the decoded path.

The two are inverse for ids that are plain segments, and only for those
(`dispatch_iff`): the client never percent-encodes the id, so a slash, a question
mark, a number sign or a percent sign in it changes the request, and a dot
segment is cleaned away. `SettleReservation` can so arrive at `handleRelease`.

What stands before the multiplexer, the limits of the `http.Server` on the size
and the time of a request, is not modelled: a request line that is longer than
`MaxHeaderBytes` (1 << 16) never gets here.
-/

namespace LoopzToken.Billing

open Lib Percent Url ServeMux

/-! ### The server -/

inductive Handler
  | handleHealth
  | handleCreateReservation
  | handleSettle
  | handleRelease
  | handleRecharge
  | handleRefund
  | handleGetWallet
  deriving DecidableEq, Repr

/-- `Server.routes`. -/
def routes : List (Pattern × Handler) :=
  [(parsePattern "GET /healthz", .handleHealth),
   (parsePattern "POST /internal/v1/billing/reservations", .handleCreateReservation),
   (parsePattern "POST /internal/v1/billing/reservations/{id}/settle", .handleSettle),
   (parsePattern "POST /internal/v1/billing/reservations/{id}/release", .handleRelease),
   (parsePattern "POST /internal/v1/billing/recharges", .handleRecharge),
   (parsePattern "POST /internal/v1/billing/refunds", .handleRefund),
   (parsePattern "GET /internal/v1/wallets/{user_id}", .handleGetWallet)]

/-! ### The client -/

/-- A client whose base URL is `http://` and a host. `NewClient` takes any text, but the
paths of the calls are put behind it as they are: already a slash at its end would make two. -/
structure Client where
  host : Bytes
  host_valid : validHost host = true

def Client.baseURL (c : Client) : Bytes := utf8 "http://" ++ c.host

/-- `Client.do`, up to the request line it writes; nothing is sent when the URL
does not parse. -/
def Client.doRequest (c : Client) (method path : Bytes) : Option Bytes :=
  (parseURL (c.baseURL ++ path)).bind (requestLine method)

def Client.settleReservation (c : Client) (reservationID : Bytes) : Option Bytes :=
  c.doRequest (utf8 "POST")
    (utf8 "/internal/v1/billing/reservations/" ++ reservationID ++ utf8 "/settle")

def Client.releaseReservation (c : Client) (reservationID : Bytes) : Option Bytes :=
  c.doRequest (utf8 "POST")
    (utf8 "/internal/v1/billing/reservations/" ++ reservationID ++ utf8 "/release")

def Client.getWallet (c : Client) (userID : Bytes) : Option Bytes :=
  c.doRequest (utf8 "GET") (utf8 "/internal/v1/wallets/" ++ userID)

/-! ### One operation -/

/-- The operations that put an id into the path. -/
inductive Operation
  | settle
  | release
  | getWallet
  deriving DecidableEq, Repr

/-- The client's call, with the request line it sends. -/
def Operation.send (c : Client) : Operation → Bytes → Option Bytes
  | .settle => c.settleReservation
  | .release => c.releaseReservation
  | .getWallet => c.getWallet

/-- The handler the call is meant for. -/
def Operation.handler : Operation → Handler
  | .settle => .handleSettle
  | .release => .handleRelease
  | .getWallet => .handleGetWallet

/-- The wildcard in which that handler looks for the id. -/
def Operation.wildcard : Operation → Bytes
  | .settle => utf8 "id"
  | .release => utf8 "id"
  | .getWallet => utf8 "user_id"

/-- An id that is one segment of a path and stands for itself there. -/
def PlainId (id : Bytes) : Prop :=
  slash ∉ id ∧ question ∉ id ∧ hash ∉ id ∧ percent ∉ id ∧ id ≠ utf8 "." ∧ id ≠ utf8 ".."

def Operation.method : Operation → Bytes
  | .settle => utf8 "POST"
  | .release => utf8 "POST"
  | .getWallet => utf8 "GET"

/-- The segments before the id. -/
def Operation.before : Operation → List Bytes
  | .settle => [utf8 "internal", utf8 "v1", utf8 "billing", utf8 "reservations"]
  | .release => [utf8 "internal", utf8 "v1", utf8 "billing", utf8 "reservations"]
  | .getWallet => [utf8 "internal", utf8 "v1", utf8 "wallets"]

/-- The segments after the id. -/
def Operation.after : Operation → List Bytes
  | .settle => [utf8 "settle"]
  | .release => [utf8 "release"]
  | .getWallet => []

def Operation.path (op : Operation) (id : Bytes) : Bytes :=
  joinPath (op.before ++ id :: op.after)

def Operation.pattern (op : Operation) : Pattern where
  method := op.method
  segments := op.before.map .literal ++ .wildcard op.wildcard :: op.after.map .literal

theorem Operation.path_eq (op : Operation) (id : Bytes) :
    op.path id = (joinPath op.before ++ [slash]) ++ id ++ joinPath op.after := by
  simp [Operation.path, joinPath_append]

/-- The concatenations of the client are joined paths. -/
theorem Operation.send_eq (c : Client) (op : Operation) (id : Bytes) :
    op.send c id = c.doRequest op.method (op.path id) := by
  rw [Operation.path_eq]
  cases op with
  | settle | release => rfl
  | getWallet => exact congrArg (c.doRequest _) (by simp [Operation.after]; rfl)

theorem Operation.mem_routes (op : Operation) : (op.pattern, op.handler) ∈ routes := by
  cases op <;> decide +kernel

/-- A handler is registered once. -/
theorem Operation.pattern_of_mem (op : Operation) {pat : Pattern}
    (h : (pat, op.handler) ∈ routes) : pat = op.pattern := by
  have hall : ∀ r ∈ routes, r.2 = op.handler → r.1 = op.pattern := by
    cases op <;> decide +kernel
  exact hall _ h rfl

theorem routes_disjoint : routes.Pairwise fun r r' => r.1.Disjoint r'.1 := by
  decide +kernel

/-- The literal segments: not empty, no dots, nothing to decode or encode. -/
theorem Operation.literal_segments (op : Operation) : ∀ s ∈ op.before ++ op.after,
    s ≠ [] ∧ s ≠ utf8 "." ∧ s ≠ utf8 ".." ∧ slash ∉ s ∧ percent ∉ s ∧
      escape shouldEscape s = s := by
  cases op <;> decide +kernel

/-! ### The request -/

theorem Operation.path_head (op : Operation) (id : Bytes) :
    (op.path id).head? = some slash := by
  cases op <;> rfl

/-- The path as it stands before a fragment and a query. -/
def Operation.sentPath (op : Operation) (id : Bytes) : Bytes × Option Bytes :=
  cut question (cut hash (op.path id)).1

theorem Operation.sentPath_head (op : Operation) (id : Bytes) :
    (op.sentPath id).1.head? = some slash :=
  cut_head (cut_head (op.path_head id) (by decide)) (by decide)

/-- A request that was sent is routed by the text of its path. -/
theorem Operation.serve_send {c : Client} {op : Operation} {id line : Bytes}
    (h : op.send c id = some line) :
    ∃ path text, Reads (op.sentPath id).1 path ∧ PathText (op.sentPath id).1 path text ∧
      serve routes line =
        if (32 : UInt8) ∈ (op.sentPath id).2.getD [] then .badRequest
        else findHandler routes op.method text := by
  rw [Operation.send_eq, Client.doRequest] at h
  obtain ⟨u, hu, hline⟩ := Option.bind_eq_some_iff.mp h
  obtain ⟨hpath, -⟩ := parseURL_http c.host_valid (op.path_head id) hu
  have hroot := op.sentPath_head id
  have hm : (32 : UInt8) ∉ op.method := by cases op <;> decide
  exact ⟨u.path, u.escapedPath, (withPath_eq_some.mp hpath).1, pathText_escapedPath hpath hroot,
    serve_requestLine hm hpath hroot hline⟩

/-- The text of a path has the slashes of the path. -/
theorem count_slash {p path text : Bytes} (h : PathText p path text) (hp : p = path) :
    text.count slash = path.count slash := by
  rcases h.cases with rfl | rfl
  · rw [hp]
  · exact count_escape (by decide) (by decide) (by decide) path

theorem Operation.names (op : Operation) : op.pattern.names = [op.wildcard] := by
  cases op <;> rfl

theorem Operation.fill (op : Operation) (v : Bytes) (vs : List Bytes) :
    joinPath (fill op.pattern.segments (v :: vs)) = op.path v := by
  cases op <;> rfl

theorem Operation.count_path (op : Operation) (id : Bytes) :
    (op.path id).count slash = op.pattern.segments.length + id.count slash := by
  have hlit : (joinPath op.before ++ [slash]).count slash + (joinPath op.after).count slash =
      op.pattern.segments.length := by
    cases op <;> decide +kernel
  rw [Operation.path_eq, List.count_append, List.count_append]
  omega

/-- A dot segment is cleaned away. -/
theorem Operation.dot_not_clean (op : Operation) : ∀ d ∈ [utf8 ".", utf8 ".."],
    cleanPath (op.path d) ≠ op.path d ∧ escape shouldEscape (op.path d) = op.path d := by
  cases op <;> decide +kernel

/-! ### Which ids come through -/

/-- A path that is read as the path of the id was sent whole: reading and cutting only
make it shorter. -/
theorem Operation.sentPath_whole {op : Operation} {id : Bytes}
    (h : Reads (op.sentPath id).1 (op.path id)) :
    (op.sentPath id).1 = op.path id ∧ question ∉ id ∧ hash ∉ id ∧ percent ∉ id := by
  have hfragment : (cut hash (op.path id)).1 <+: op.path id := cut_fst_isPrefix _
  have hquery : (op.sentPath id).1 <+: (cut hash (op.path id)).1 := cut_fst_isPrefix _
  have hsame : (op.sentPath id).1 = op.path id :=
    (hquery.trans hfragment).eq_of_length_le h.length.1
  have hfull : (cut hash (op.path id)).1 = op.path id :=
    hfragment.eq_of_length_le (hsame ▸ hquery.length_le)
  have hsub : ∀ b ∈ id, b ∈ op.path id := by
    intro b hb
    rw [op.path_eq]
    exact List.mem_append_left _ (List.mem_append_right _ hb)
  refine ⟨hsame, fun hq => ?_, fun hh => ?_, fun hp => ?_⟩
  · exact not_mem_cut (x := question) _ (hsame ▸ hsub _ hq)
  · exact not_mem_cut (x := hash) (op.path id) (by rw [hfull]; exact hsub _ hh)
  · have := h.length.2 (hsame ▸ hsub _ hp)
    rw [hsame] at this
    omega

/-- The pattern has one wildcard, so a match gives one value a name. -/
theorem Operation.match_inv {op : Operation} {path id : Bytes}
    (h : op.pattern.match? op.method path = some [(op.wildcard, id)]) :
    ∃ vs, matchPath op.pattern.segments path = some (id :: vs) := by
  obtain ⟨-, vs, hvs, hzip⟩ := (match?_eq_some (by cases op <;> decide)).mp h
  rw [op.names] at hzip
  cases vs with
  | nil => cases hzip
  | cons v vs =>
      simp only [List.zip_cons_cons, List.zip_nil_left, List.cons.injEq, Prod.mk.injEq, true_and,
        and_true] at hzip
      exact ⟨vs, hzip ▸ hvs⟩

/-- An id that comes through is a plain segment. -/
theorem plainId_of_dispatch {c : Client} {op : Operation} {id line : Bytes}
    (hsent : op.send c id = some line)
    (h : serve routes line = .handled op.handler [(op.wildcard, id)]) : PlainId id := by
  obtain ⟨path, text, hreads, htext, hserve⟩ := op.serve_send hsent
  rw [hserve] at h
  split at h
  · cases h
  obtain ⟨hclean, pat, hmem, hmatch⟩ := findHandler_handled h
  obtain rfl := op.pattern_of_mem hmem
  obtain ⟨vs, hvs⟩ := Operation.match_inv hmatch
  have hroot : Rooted text :=
    .inr (htext.head (op.sentPath_head id) (Reads.head_slash hreads (op.sentPath_head id)))
  obtain ⟨hdec, hcount⟩ := matchPath_reads (by cases op <;> decide +kernel) hroot htext.reads hvs
  rw [op.fill] at hdec
  subst hdec
  obtain ⟨hsame, hquestion, hhash, hpercent⟩ := Operation.sentPath_whole hreads
  -- the text has as many slashes as the pattern has segments, so none stands in the id
  have hslash : slash ∉ id := by
    have := count_slash htext hsame
    rw [hcount, op.count_path] at this
    exact List.count_eq_zero.mp (by omega)
  have htextpath : text = op.path id ∨ text = escape shouldEscape (op.path id) :=
    hsame ▸ htext.cases
  have hdot : ∀ d ∈ [utf8 ".", utf8 ".."], id ≠ d := by
    intro d hd heq
    subst heq
    obtain ⟨hdirty, hesc⟩ := op.dot_not_clean id hd
    rw [hesc, or_self] at htextpath
    exact hdirty (htextpath ▸ hclean)
  exact ⟨hslash, hquestion, hhash, hpercent, hdot _ (by simp), hdot _ (by simp)⟩

/-- Encoding a path encodes the id in it. -/
theorem Operation.escape_path (op : Operation) (id : Bytes) :
    escape shouldEscape (op.path id) = op.path (escape shouldEscape id) := by
  have hlit : ∀ l : List Bytes, (∀ s ∈ l, s ∈ op.before ++ op.after) →
      l.map (escape shouldEscape) = l := by
    intro l hl
    conv_rhs => rw [← List.map_id l]
    exact List.map_congr_left fun s hs => (op.literal_segments s (hl s hs)).2.2.2.2.2
  rw [Operation.path, escape_joinPath, List.map_append, List.map_cons,
    hlit _ fun s hs => List.mem_append_left _ hs, hlit _ fun s hs => List.mem_append_right _ hs]
  rfl

theorem Operation.not_mem_path (op : Operation) {b : UInt8}
    (hb : b = question ∨ b = hash ∨ b = percent) {id : Bytes} (hid : b ∉ id) :
    b ∉ op.path id := by
  have hlit : b ∉ joinPath op.before ++ [slash] ++ joinPath op.after := by
    rcases hb with rfl | rfl | rfl <;> cases op <;> decide +kernel
  rw [op.path_eq]
  simp only [List.mem_append, not_or] at hlit ⊢
  exact ⟨⟨hlit.1, hid⟩, hlit.2⟩

theorem Operation.fits (op : Operation) {text id : Bytes} (hne : text ≠ []) (hs : slash ∉ text)
    (hv : id ≠ [slash]) (hr : Reads text id) :
    Fits op.pattern.segments (op.before ++ text :: op.after) [id] := by
  have hlit : ∀ s ∈ op.before ++ op.after, s ≠ [] ∧ slash ∉ s ∧ percent ∉ s := fun s hs =>
    let h := op.literal_segments s hs
    ⟨h.1, h.2.2.2.1, h.2.2.2.2.1⟩
  have hafter : Fits (op.after.map .literal) op.after [] := by
    simpa using Fits.literals (fun s hs => hlit s (List.mem_append_right _ hs)) .nil
  exact Fits.literals (fun s hs => hlit s (List.mem_append_left _ hs))
    (.wildcard hne hs hv hr hafter)

/-- A segment that is no dot segment leaves the path clean. -/
theorem Operation.clean_path (op : Operation) {t : Bytes} (hne : t ≠ []) (hdot : t ≠ utf8 ".")
    (hdots : t ≠ utf8 "..") (hs : slash ∉ t) : cleanPath (op.path t) = op.path t := by
  have hlit : ∀ s ∈ op.before ++ op.after, s ≠ [] ∧ s ≠ utf8 "." ∧ s ≠ utf8 ".." ∧ slash ∉ s :=
    fun s hs =>
      let h := op.literal_segments s hs
      ⟨h.1, h.2.1, h.2.2.1, h.2.2.2.1⟩
  refine cleanPath_joinPath (by simp) fun s hs' => ?_
  rcases List.mem_append.mp hs' with hs' | hs'
  · exact hlit s (List.mem_append_left _ hs')
  · rcases List.mem_cons.mp hs' with rfl | hs'
    · exact ⟨hne, hdot, hdots, hs⟩
    · exact hlit s (List.mem_append_right _ hs')

theorem Operation.match_path (op : Operation) {t id : Bytes} (hne : t ≠ []) (hs : slash ∉ t)
    (hv : id ≠ [slash]) (hr : Reads t id) :
    op.pattern.match? op.method (op.path t) = some [(op.wildcard, id)] := by
  have hget : op.method ≠ utf8 "HEAD" := by cases op <;> decide
  refine (match?_eq_some hget).mpr ⟨rfl, [id], matchPath_joinPath (op.fits hne hs hv hr), ?_⟩
  rw [op.names]
  rfl

/-- A plain id is sent as one segment, as it is or encoded. -/
theorem Operation.text_of_plainId {op : Operation} {id path text : Bytes} (h : PlainId id)
    (hreads : Reads (op.sentPath id).1 path) (htext : PathText (op.sentPath id).1 path text) :
    (op.sentPath id).2 = none ∧ ∃ t, text = op.path t ∧ Reads t id ∧ slash ∉ t := by
  obtain ⟨hslash, hq, hh, hp, -⟩ := h
  have hcut : op.sentPath id = (op.path id, none) := by
    rw [Operation.sentPath, cut_of_not_mem (op.not_mem_path (.inr (.inl rfl)) hh),
      cut_of_not_mem (op.not_mem_path (.inl rfl) hq)]
  rw [hcut] at hreads htext ⊢
  obtain rfl := hreads.unique (.refl (op.not_mem_path (.inr (.inr rfl)) hp))
  refine ⟨rfl, ?_⟩
  rcases htext.cases with rfl | rfl
  · exact ⟨id, rfl, .refl hp, hslash⟩
  · refine ⟨escape shouldEscape id, op.escape_path id, reads_escapedPath id, ?_⟩
    rw [← List.count_eq_zero, count_escape (by decide) (by decide) (by decide)]
    exact List.count_eq_zero.mpr hslash

/-- A plain segment comes through. -/
theorem dispatch_of_plainId {c : Client} {op : Operation} {id line : Bytes} (hid : id ≠ [])
    (hsent : op.send c id = some line) (h : PlainId id) :
    serve routes line = .handled op.handler [(op.wildcard, id)] := by
  obtain ⟨path, text, hreads, htext, hserve⟩ := op.serve_send hsent
  obtain ⟨hquery, t, rfl, ht, hts⟩ := Operation.text_of_plainId h hreads htext
  obtain ⟨hslash, -, -, -, hdot, hdots⟩ := h
  have hne : t ≠ [] := by
    intro heq
    subst heq
    exact hid (ht.unique .nil)
  -- an encoded text is no dot segment either, since a dot is read as itself
  have hundot : ∀ d, percent ∉ d → id ≠ d → t ≠ d := by
    intro d hd hne heq
    subst heq
    exact hne (ht.unique (.refl hd))
  have hclean := op.clean_path hne (hundot _ (by decide) hdot) (hundot _ (by decide) hdots) hts
  have hv : id ≠ [slash] := by
    intro heq
    exact hslash (heq ▸ List.mem_singleton.mpr rfl)
  have hmatch := op.match_path hne hts hv ht
  have hget : op.method ≠ utf8 "HEAD" := by cases op <;> decide
  rw [hserve, hquery, if_neg (by simp), findHandler]
  simp only [hclean, ne_eq, not_true_eq_false, if_false,
    lookup_eq routes_disjoint hget op.mem_routes hmatch]

/-- **Which ids the routes decode.** A request that the client sends for a non-empty
id is dispatched to the operation's handler with this id, if and only if the id is a
plain segment. -/
theorem dispatch_iff (c : Client) (op : Operation) {id line : Bytes} (hid : id ≠ [])
    (hsent : op.send c id = some line) :
    serve routes line = .handled op.handler [(op.wildcard, id)] ↔ PlainId id :=
  ⟨plainId_of_dispatch hsent, dispatch_of_plainId hid hsent⟩

/-- The client of the default configuration. -/
def localClient : Client where
  host := utf8 "localhost:8081"
  host_valid := by decide +kernel

theorem dispatch_res42 :
    ∃ line, Operation.settle.send localClient (utf8 "res 42") = some line ∧
      serve routes line = .handled .handleSettle [(utf8 "id", utf8 "res 42")] := by
  obtain ⟨line, hline⟩ := Option.isSome_iff_exists.mp
    (show (Operation.settle.send localClient (utf8 "res 42")).isSome by decide +kernel)
  have hplain : PlainId (utf8 "res 42") := by
    unfold PlainId
    decide +kernel
  exact ⟨line, hline, (dispatch_iff localClient .settle (by decide) hline).mpr hplain⟩

/-- A settlement that arrives as the release of another reservation. -/
theorem settle_arrives_at_release :
    ∃ line, Operation.settle.send localClient (utf8 "r1/release?x=") = some line ∧
      serve routes line = .handled .handleRelease [(utf8 "id", utf8 "r1")] ∧
      serve routes line ≠ .handled .handleSettle [(utf8 "id", utf8 "r1/release?x=")] := by
  obtain ⟨line, hline, hserve⟩ := Option.map_eq_some_iff.mp
    (show (Operation.settle.send localClient (utf8 "r1/release?x=")).map (serve routes) =
      some (.handled .handleRelease [(utf8 "id", utf8 "r1")]) by decide +kernel)
  refine ⟨line, hline, hserve, ?_⟩
  rw [hserve]
  exact fun h => absurd (Response.handled.inj h).1 (by decide)

end LoopzToken.Billing
