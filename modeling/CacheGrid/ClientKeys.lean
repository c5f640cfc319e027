import CacheGrid.MembershipEvents
import CacheGrid.ResponseCaching
import CacheGrid.TokenBucket

/-!
# The key of a client

`HTTPRateLimit` gives each client a token bucket of its own, under the key
that `clientIP` finds for it.  Without a header of a proxy this is the part of
the remote address in front of its first colon.  Of an IPv4 address that is
the host; an IPv6 address stands in brackets and has colons itself, so of it
only the bracket and the first group remain.
-/

namespace CacheGrid

open SequentialRuns Ratelimit

namespace Middleware

/-! ## `clientIP` -/

/-- `strings.Cut` at a separator of one byte. -/
def cut (text : GoString) (sep : UInt8) : GoString × GoString × Bool :=
  (text.takeWhile (· ≠ sep), (text.dropWhile (· ≠ sep)).tail,
    decide (sep ∈ text))

/-- `strings.SplitN` into two parts at most. -/
def splitTwo (text : GoString) (sep : UInt8) : List GoString :=
  let parts := cut text sep
  if parts.2.2 then [parts.1, parts.2.1] else [text]

structure ClientRequest where
  header : Header
  remoteAddr : GoString

section Limiter

/-! `http.CanonicalHeaderKey` and `strings.TrimSpace` are parameters. -/

variable (canonicalKey trimSpace : GoString → GoString)

def clientIP (req : ClientRequest) : GoString :=
  let forwarded := Header.get canonicalKey req.header
    (ascii "X-Forwarded-For")
  if forwarded ≠ [] then trimSpace ((splitTwo forwarded 44).headD [])
  else
    let realIP := Header.get canonicalKey req.header (ascii "X-Real-IP")
    if realIP ≠ [] then realIP else (cut req.remoteAddr 58).1

/-! ## `HTTPRateLimit` -/

def httpError (w : ResponseWriter) (message : GoString) (code : ℤ) :
    ResponseWriter :=
  (((w.setHeader canonicalKey (ascii "Content-Type")
    (ascii "text/plain; charset=utf-8")).setHeader canonicalKey
    (ascii "X-Content-Type-Options") (ascii "nosniff")).writeHeader code).write
    (message ++ [10])

def limitHeaders (state : State) : ResponseWriter :=
  ((ResponseWriter.new.setHeader canonicalKey (ascii "X-RateLimit-Limit")
    (Membership.itoa state.limit.toInt)).setHeader canonicalKey
    (ascii "X-RateLimit-Remaining")
    (Membership.itoa state.remaining.toInt)).setHeader canonicalKey
    (ascii "X-RateLimit-Reset") (Membership.itoa (state.resetsAt / 10 ^ 9))

/-- The rest of the middleware, once the limiter has answered. -/
def limitedReply (state : State) (handler : List HandlerCall) : Reply :=
  let w := limitHeaders canonicalKey state
  if state.allowed then
    (handler.foldl (ResponseWriter.call canonicalKey) w).finish
  else
    (httpError canonicalKey w (ascii "rate limit exceeded") 429).finish

/-- A request, the calls with which the wrapped handler answers it, and the
instant that the limiter reads. -/
structure Visit where
  req : ClientRequest
  handler : List HandlerCall
  now : ℤ

def limitKey (req : ClientRequest) : GoString :=
  ascii "ratelimit:" ++ clientIP canonicalKey trimSpace req

variable (limit : Int64) (window : Duration)

def httpRateLimit (tb : TokenBucket) (visit : Visit) : Reply × TokenBucket :=
  let next := tb.allow (limitKey canonicalKey trimSpace visit.req) limit window
    visit.now
  (limitedReply canonicalKey next.1 visit.handler, next.2)

/-! ## Separate buckets -/

/-- The middleware on the bucket of the client. -/
def limitEntry (entry : Option Bucket) (visit : Visit) :
    Reply × Option Bucket :=
  let next := TokenBucket.allowEntry entry limit window visit.now
  (limitedReply canonicalKey next.1 visit.handler, some next.2)

theorem httpRateLimit_actsOnCell :
    ActsOnCell (httpRateLimit canonicalKey trimSpace limit window)
      (limitEntry canonicalKey limit window)
      (fun tb key => tb.buckets.lookup key)
      (fun visit => limitKey canonicalKey trimSpace visit.req) where
  result_eq _ _ := rfl
  own_eq _ _ := AList.lookup_insert _
  other_eq _ _ _ hne := AList.lookup_insert_ne hne

theorem trace_of_client (tb : TokenBucket) (visits : List Visit)
    (ip : GoString) :
    (trace (httpRateLimit canonicalKey trimSpace limit window) tb
        visits).filter
        (fun event => clientIP canonicalKey trimSpace event.1.req = ip) =
      trace (httpRateLimit canonicalKey trimSpace limit window) tb
        (visits.filter
          fun visit => clientIP canonicalKey trimSpace visit.req = ip) := by
  have halone := (httpRateLimit_actsOnCell canonicalKey trimSpace limit
    window).trace_alone tb visits (ascii "ratelimit:" ++ ip)
  simpa only [limitKey, List.append_cancel_left_eq] using halone

end Limiter

/-! ## Which clients have different keys -/

def firstGroup (host : GoString) : GoString := host.takeWhile (· ≠ 58)

theorem firstGroup_append_of_mem {host : GoString} (hhost : 58 ∈ host)
    (rest : GoString) : firstGroup (host ++ rest) = firstGroup host := by
  induction host with
  | nil => contradiction
  | cons b host ih =>
    unfold firstGroup at ih ⊢
    by_cases hb : b = 58
    · rw [List.cons_append, List.takeWhile_cons_of_neg (by simpa using hb),
        List.takeWhile_cons_of_neg (by simpa using hb)]
    · have hmem := (List.mem_cons.mp hhost).resolve_left (Ne.symm hb)
      rw [List.cons_append, List.takeWhile_cons_of_pos (by simpa using hb),
        List.takeWhile_cons_of_pos (by simpa using hb), ih hmem]

theorem cut_joinHostPort (host port : GoString) :
    (cut (Membership.joinHostPort host port) 58).1 =
      if 58 ∈ host then 91 :: firstGroup host else host := by
  rw [Membership.joinHostPort]
  split
  · rename_i hcolon
    have hbrackets : ascii "[" ++ host ++ ascii "]:" ++ port =
        91 :: (host ++ (ascii "]:" ++ port)) := by
      rw [show ascii "[" = [91] by decide]
      simp only [List.append_assoc, List.cons_append, List.nil_append]
    rw [hbrackets]
    exact congrArg (91 :: ·) (firstGroup_append_of_mem hcolon _)
  · rename_i hcolon
    have hport : firstGroup (ascii ":" ++ port) = [] := rfl
    have hhost : ∀ b ∈ host, decide (b ≠ 58) = true := by
      intro b hb
      rw [decide_eq_true_eq]
      rintro rfl
      exact hcolon hb
    calc (host ++ ascii ":" ++ port).takeWhile (· ≠ 58)
        = (host ++ (ascii ":" ++ port)).takeWhile (· ≠ 58) := by
          rw [List.append_assoc]
      _ = host ++ firstGroup (ascii ":" ++ port) :=
          List.takeWhile_append_of_pos hhost
      _ = host := by rw [hport, List.append_nil]

structure Direct (canonicalKey : GoString → GoString) (req : ClientRequest) :
    Prop where
  forwarded : Header.get canonicalKey req.header (ascii "X-Forwarded-For") = []
  realIP : Header.get canonicalKey req.header (ascii "X-Real-IP") = []

theorem Direct.clientIP_eq {canonicalKey : GoString → GoString}
    {req : ClientRequest} (hdirect : Direct canonicalKey req)
    (trimSpace : GoString → GoString) {host port : GoString}
    (haddr : req.remoteAddr = Membership.joinHostPort host port) :
    clientIP canonicalKey trimSpace req =
      if 58 ∈ host then 91 :: firstGroup host else host := by
  simp only [clientIP, hdirect.forwarded, hdirect.realIP, ne_eq,
    not_true_eq_false, if_false]
  rw [haddr, cut_joinHostPort]

/-- Two hosts are IPv6 addresses that begin with the same group. -/
def SameGroup (host host' : GoString) : Prop :=
  58 ∈ host ∧ 58 ∈ host' ∧ firstGroup host = firstGroup host'

instance decidableSameGroup (host host' : GoString) :
    Decidable (SameGroup host host') := instDecidableAnd

/-- A host is an IPv6 address, which has a colon, or an IPv4 address, which has
no bracket.  One host has one key, whatever the port.  Different hosts have
different keys if and only if they are not IPv6 addresses with the same first
group. -/
theorem clientIP_ne_iff {canonicalKey : GoString → GoString}
    (trimSpace : GoString → GoString) {req req' : ClientRequest}
    (hdirect : Direct canonicalKey req) (hdirect' : Direct canonicalKey req')
    {host port host' port' : GoString}
    (haddr : req.remoteAddr = Membership.joinHostPort host port)
    (haddr' : req'.remoteAddr = Membership.joinHostPort host' port')
    (hplain : 58 ∉ host → 91 ∉ host) (hplain' : 58 ∉ host' → 91 ∉ host') :
    (host = host' → clientIP canonicalKey trimSpace req =
      clientIP canonicalKey trimSpace req') ∧
    (host ≠ host' → (clientIP canonicalKey trimSpace req ≠
      clientIP canonicalKey trimSpace req' ↔ ¬SameGroup host host')) := by
  rw [hdirect.clientIP_eq trimSpace haddr, hdirect'.clientIP_eq trimSpace haddr']
  constructor
  · rintro rfl
    rfl
  · intro hne
    rw [not_iff_not]
    by_cases hcolon : 58 ∈ host
    · by_cases hcolon' : 58 ∈ host'
      · simp [SameGroup, hcolon, hcolon']
      · -- a bracket against a host that has none
        have hbracket : 91 :: firstGroup host ≠ host' := by
          rintro rfl
          exact hplain' hcolon' List.mem_cons_self
        simp [SameGroup, hcolon, hcolon', hbracket]
    · by_cases hcolon' : 58 ∈ host'
      · have hbracket : host ≠ 91 :: firstGroup host' := by
          rintro rfl
          exact hplain hcolon List.mem_cons_self
        simp [SameGroup, hcolon, hcolon', hbracket]
      · simp [SameGroup, hcolon, hcolon', hne]

def requestFrom (host port : GoString) : ClientRequest :=
  ⟨∅, Membership.joinHostPort host port⟩

theorem direct_requestFrom (canonicalKey : GoString → GoString)
    (host port : GoString) :
    Direct canonicalKey (requestFrom host port) :=
  ⟨rfl, rfl⟩

theorem clientIP_ne_ipv4 :
    (ascii "10.0.0.1" = ascii "10.0.0.2" →
      clientIP id id (requestFrom (ascii "10.0.0.1") (ascii "5000")) =
        clientIP id id (requestFrom (ascii "10.0.0.2") (ascii "5000"))) ∧
    (ascii "10.0.0.1" ≠ ascii "10.0.0.2" →
      (clientIP id id (requestFrom (ascii "10.0.0.1") (ascii "5000")) ≠
        clientIP id id (requestFrom (ascii "10.0.0.2") (ascii "5000")) ↔
        ¬SameGroup (ascii "10.0.0.1") (ascii "10.0.0.2"))) :=
  clientIP_ne_iff id (direct_requestFrom id _ _) (direct_requestFrom id _ _)
    rfl rfl (by decide) (by decide)

/-- Two IPv6 clients have one key, and with a limit of one the second is
refused. -/
theorem clientIP_collides :
    clientIP id id (requestFrom (ascii "2001:db8::1") (ascii "5000")) =
      ascii "[2001" ∧
    clientIP id id (requestFrom (ascii "2001:db8::2") (ascii "5000")) =
      ascii "[2001" ∧
    ((run (httpRateLimit id id 1 60000000000) .new
      [⟨requestFrom (ascii "2001:db8::1") (ascii "5000"), [], 0⟩,
        ⟨requestFrom (ascii "2001:db8::2") (ascii "5000"), [], 0⟩]).1.map
      Reply.status) = [200, 429] := by
  decide +kernel

end Middleware

end CacheGrid
