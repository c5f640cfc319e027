import Mathlib.Data.List.TakeWhile
import CacheGrid.GridCluster
import CacheGrid.StoreLaws

/-!
# Cached HTTP responses

`HTTPCache` of `middleware.go`.  A handler is the sequence of calls that it
makes on its `ResponseWriter`.  The first WriteHeader or Write fixes the
status and the headers that the client gets; later header calls change the
map but not the response.  The server refuses a Write to a response that has no
body, and one that goes beyond the Content-Length that the response declares.

The recorder between the handler and the client sees the same calls and keeps
something else: the status of the last WriteHeader, one value of every header
that is in the map when the handler has returned, and all that the handler has
written, refused or not, which a HIT then writes at once.
-/

namespace CacheGrid

open InterleavedPrograms

namespace Middleware

/-! ## `net/http` -/

abbrev Header := AList fun _ : GoString => List GoString

def Header.values (h : Header) (key : GoString) : List GoString :=
  (h.lookup key).getD []

section Handlers

/- `http.CanonicalHeaderKey` -/
variable (canonicalKey : GoString → GoString)

def Header.add (h : Header) (key value : GoString) : Header :=
  h.insert (canonicalKey key) (Header.values h (canonicalKey key) ++ [value])

def Header.set (h : Header) (key value : GoString) : Header :=
  h.insert (canonicalKey key) [value]

def Header.get (h : Header) (key : GoString) : GoString :=
  (Header.values h (canonicalKey key)).headD []

inductive HandlerCall where
  | add (key value : GoString)
  | set (key value : GoString)
  | writeHeader (code : ℤ)
  | write (data : Bytes)

def contentLength : GoString := ascii "Content-Length"

/-- The length that a response with these values of Content-Length declares. -/
def declaredLength (values : List GoString) : Option ℕ :=
  (atoi (values.headD [])).bind fun n =>
    if 0 ≤ n then some n.toInt.toNat else none

def invalidLength (values : List GoString) : Bool :=
  decide (values.headD [] ≠ []) && (declaredLength values).isNone

/-- The header map once the response is fixed: an invalid Content-Length is
dropped. -/
def Header.settle (h : Header) : Header :=
  if invalidLength (Header.values h contentLength) then h.erase contentLength
  else h

def bodyAllowedForStatus (status : ℤ) : Bool :=
  !decide (100 ≤ status ∧ status ≤ 199 ∨ status = 204 ∨ status = 304)

/-- `w.Header()`, the status and headers that have been sent, the number of
bytes that the handler has tried to write, and the body. -/
structure ResponseWriter where
  header : Header
  sent : Option (ℤ × Header)
  written : ℕ
  body : Bytes

/-- What the client has received in the end, of what the handler determines. -/
structure Reply where
  status : ℤ
  headers : Header
  body : Bytes

namespace ResponseWriter

def new : ResponseWriter := ⟨∅, none, 0, []⟩

def writeHeader (w : ResponseWriter) (code : ℤ) : ResponseWriter :=
  match w.sent with
  | some _ => w
  | none =>
    let header := Header.settle w.header
    { w with header := header, sent := some (code, header) }

/-- Write on a response whose status and headers are fixed.  A refused Write
counts as written. -/
def writeBody (w : ResponseWriter) (sent : ℤ × Header) (data : Bytes) :
    ResponseWriter :=
  if data = [] ∨ bodyAllowedForStatus sent.1 = false then w
  else
    let written := w.written + data.length
    if (declaredLength (Header.values sent.2 contentLength)).any
        (· < written) then { w with written := written }
    else { w with written := written, body := w.body ++ data }

def write (w : ResponseWriter) (data : Bytes) : ResponseWriter :=
  let w := w.writeHeader 200
  w.writeBody (w.sent.getD (200, w.header)) data

def setHeader (w : ResponseWriter) (key value : GoString) : ResponseWriter :=
  { w with header := Header.set canonicalKey w.header key value }

def call (w : ResponseWriter) : HandlerCall → ResponseWriter
  | .add key value =>
    { w with header := Header.add canonicalKey w.header key value }
  | .set key value => w.setHeader canonicalKey key value
  | .writeHeader code => w.writeHeader code
  | .write data => w.write data

/-- When the handler returns, the server sends what has not been sent yet. -/
def finish (w : ResponseWriter) : Reply :=
  let w := w.writeHeader 200
  let sent := w.sent.getD (200, w.header)
  ⟨sent.1, sent.2, w.body⟩

end ResponseWriter

/-! ## `HTTPCache` -/

structure CachedResponse where
  statusCode : ℤ
  body : Bytes
  headers : AList fun _ : GoString => GoString

instance decidableEqCachedResponse : DecidableEq CachedResponse :=
  fun a b => decidable_of_iff
    (a.statusCode = b.statusCode ∧ a.body = b.body ∧
      a.headers.entries = b.headers.entries) <| by
    rw [← AList.ext_iff]
    cases a
    cases b
    simp

structure ResponseRecorder where
  writer : ResponseWriter
  body : Bytes
  statusCode : ℤ

namespace ResponseRecorder

def new : ResponseRecorder := ⟨.new, [], 200⟩

def writeHeader (r : ResponseRecorder) (code : ℤ) : ResponseRecorder :=
  { r with statusCode := code, writer := r.writer.writeHeader code }

def write (r : ResponseRecorder) (data : Bytes) : ResponseRecorder :=
  { r with body := r.body ++ data, writer := r.writer.write data }

/-- The recorder has its own WriteHeader and Write; `Header()` is that of the
writer it embeds. -/
def call (r : ResponseRecorder) : HandlerCall → ResponseRecorder
  | .writeHeader code => r.writeHeader code
  | .write data => r.write data
  | op => { r with writer := r.writer.call canonicalKey op }

def cachedResponse (r : ResponseRecorder) : CachedResponse where
  statusCode := r.statusCode
  body := r.body
  headers := r.writer.header.keys.foldl
    (fun headers key =>
      headers.insert key (Header.get canonicalKey r.writer.header key)) ∅

end ResponseRecorder

def xCache : GoString := ascii "X-Cache"

def replay (cached : CachedResponse) : Reply :=
  let w := cached.headers.keys.foldl
    (fun w key =>
      w.setHeader canonicalKey key ((cached.headers.lookup key).getD []))
    ResponseWriter.new
  let w := w.setHeader canonicalKey xCache (ascii "HIT")
  ((w.writeHeader cached.statusCode).write cached.body).finish

def record (handler : List HandlerCall) : ResponseRecorder :=
  handler.foldl (ResponseRecorder.call canonicalKey) .new

def firstReply (handler : List HandlerCall) : Reply :=
  ((record canonicalKey handler).writer.setHeader canonicalKey xCache
    (ascii "MISS")).finish

structure Request where
  method : GoString
  url : GoString

/-- `sha256Hex` is the hash of a text as hexadecimal digits. -/
def cacheKey (sha256Hex : GoString → GoString) (req : Request) : GoString :=
  ascii "httpcache:" ++ (sha256Hex (req.method ++ req.url)).take 16

/-- `handler` are the calls with which the wrapped handler answers `req`. -/
def httpCache (sha256Hex : GoString → GoString)
    (z : Serializer CachedResponse Unit) (c : GoString) (ttl : Duration)
    (req : Request) (handler : List HandlerCall) : Grid.Program Reply := do
  if req.method ≠ ascii "GET" then
    pure (handler.foldl (ResponseWriter.call canonicalKey) .new).finish
  else
    let key := cacheKey sha256Hex req
    match ← Grid.get z c key (.other ()) with
    | some (.other cached) => pure (replay canonicalKey cached)
    | _ => do
      let recorder := record canonicalKey handler
      if 200 ≤ recorder.statusCode ∧ recorder.statusCode < 400 then do
        let _ ← Grid.set z c key
          (.other (recorder.cachedResponse canonicalKey)) ttl
        pure (firstReply canonicalKey handler)
      else pure (firstReply canonicalKey handler)

/-! ## What is sent and what is stored -/

def HandlerCall.isHeader : HandlerCall → Bool
  | .add _ _ => true
  | .set _ _ => true
  | _ => false

def Header.call (h : Header) : HandlerCall → Header
  | .add key value => Header.add canonicalKey h key value
  | .set key value => Header.set canonicalKey h key value
  | _ => h

def headersAfter (handler : List HandlerCall) : Header :=
  handler.foldl (Header.call canonicalKey) ∅

def fixedStatus : List HandlerCall → ℤ
  | [] => 200
  | .writeHeader code :: _ => code
  | .write _ :: _ => 200
  | _ :: rest => fixedStatus rest

def recordStatus (status : ℤ) : HandlerCall → ℤ
  | .writeHeader code => code
  | _ => status

def lastStatus (handler : List HandlerCall) : ℤ :=
  handler.foldl recordStatus 200

/-- The header map when the response is fixed. -/
def openHeaders (handler : List HandlerCall) : Header :=
  headersAfter canonicalKey (handler.takeWhile HandlerCall.isHeader)

/-- The header map when the handler has returned. -/
def endHeaders (handler : List HandlerCall) : Header :=
  if handler.all HandlerCall.isHeader then headersAfter canonicalKey handler
  else (handler.dropWhile HandlerCall.isHeader).foldl
    (Header.call canonicalKey) (Header.settle (openHeaders canonicalKey handler))

def HandlerCall.written : HandlerCall → Bytes
  | .write data => data
  | _ => []

/-- What the handler writes, without the empty Writes. -/
def writes (handler : List HandlerCall) : List Bytes :=
  (handler.map HandlerCall.written).filter (· ≠ [])

/-- What arrives of a sequence of Writes under a declared length, if `written`
bytes have been written before. -/
def accepted (declared : Option ℕ) : ℕ → List Bytes → Bytes
  | _, [] => []
  | written, data :: rest =>
    (if declared.any (· < written + data.length) then [] else data) ++
      accepted declared (written + data.length) rest

def sentBody (status : ℤ) (values : List GoString) (data : List Bytes) :
    Bytes :=
  if bodyAllowedForStatus status then accepted (declaredLength values) 0 data
  else []

theorem writer_record (handler : List HandlerCall) :
    (record canonicalKey handler).writer =
      handler.foldl (ResponseWriter.call canonicalKey) .new := by
  suffices hfold : ∀ r : ResponseRecorder,
      (handler.foldl (ResponseRecorder.call canonicalKey) r).writer =
        handler.foldl (ResponseWriter.call canonicalKey) r.writer from
    hfold .new
  induction handler with
  | nil => exact fun _ => rfl
  | cons op rest ih =>
    intro r
    rw [List.foldl_cons, ih, List.foldl_cons]
    cases op <;> rfl

theorem statusCode_record (handler : List HandlerCall) :
    (record canonicalKey handler).statusCode = lastStatus handler := by
  suffices hfold : ∀ r : ResponseRecorder,
      (handler.foldl (ResponseRecorder.call canonicalKey) r).statusCode =
        handler.foldl recordStatus r.statusCode from hfold .new
  induction handler with
  | nil => exact fun _ => rfl
  | cons op rest ih =>
    intro r
    rw [List.foldl_cons, ih, List.foldl_cons]
    cases op <;> rfl

omit canonicalKey in
theorem flatten_writes_cons (op : HandlerCall) (rest : List HandlerCall) :
    (writes (op :: rest)).flatten = op.written ++ (writes rest).flatten := by
  unfold writes
  by_cases hempty : op.written = []
  · simp [hempty]
  · simp [hempty]

theorem body_record (handler : List HandlerCall) :
    (record canonicalKey handler).body = (writes handler).flatten := by
  suffices hfold : ∀ r : ResponseRecorder,
      (handler.foldl (ResponseRecorder.call canonicalKey) r).body =
        r.body ++ (writes handler).flatten from hfold .new
  induction handler with
  | nil => exact fun r => (List.append_nil r.body).symm
  | cons op rest ih =>
    intro r
    rw [List.foldl_cons, ih, flatten_writes_cons, ← List.append_assoc]
    cases op with
    | write data => rfl
    | _ => exact congrArg (· ++ _) (List.append_nil r.body).symm

theorem foldl_of_sent (handler : List HandlerCall) {w : ResponseWriter}
    {sent : ℤ × Header} (hsent : w.sent = some sent) :
    let after := handler.foldl (ResponseWriter.call canonicalKey) w
    after.sent = some sent ∧
      after.header = handler.foldl (Header.call canonicalKey) w.header ∧
      after.body = w.body ++ if bodyAllowedForStatus sent.1 then
        accepted (declaredLength (Header.values sent.2 contentLength))
          w.written (writes handler) else [] := by
  induction handler generalizing w with
  | nil => simp [hsent, writes, accepted]
  | cons op rest ih =>
    simp only [List.foldl_cons]
    cases op with
    | add key value => exact ih hsent
    | set key value => exact ih hsent
    | writeHeader code =>
      have hsame : w.call canonicalKey (.writeHeader code) = w := by
        simp only [ResponseWriter.call, ResponseWriter.writeHeader, hsent]
      rw [hsame]
      exact ih hsent
    | write data =>
      have hwrite : w.call canonicalKey (.write data) =
          w.writeBody sent data := by
        simp only [ResponseWriter.call, ResponseWriter.write,
          ResponseWriter.writeHeader, hsent, Option.getD_some]
      have hheader : Header.call canonicalKey w.header (.write data) =
          w.header := rfl
      rw [hwrite, hheader]
      unfold ResponseWriter.writeBody
      by_cases hskip : data = [] ∨ bodyAllowedForStatus sent.1 = false
      · rw [if_pos hskip]
        obtain ⟨hfixed, hheader, hbody⟩ := ih hsent
        refine ⟨hfixed, hheader, hbody.trans ?_⟩
        rcases hskip with rfl | hnot
        · rfl
        · simp [hnot]
      · rw [if_neg hskip]
        rw [not_or, Bool.not_eq_false] at hskip
        have hwrites : writes (.write data :: rest) =
            data :: writes rest := by
          simp [writes, HandlerCall.written, hskip.1]
        rw [hwrites]
        simp only [hskip.2, if_true, accepted]
        split
        · have hrest := @ih { w with written := w.written + data.length }
            hsent
          simpa [hskip.2] using hrest
        · have hrest := @ih { w with
            written := w.written + data.length
            body := w.body ++ data } hsent
          simpa [hskip.2] using hrest

theorem foldl_fixes {op : HandlerCall} (hop : op.isHeader = false)
    (rest : List HandlerCall) {w : ResponseWriter} (hsent : w.sent = none) :
    (op :: rest).foldl (ResponseWriter.call canonicalKey) w =
      (op :: rest).foldl (ResponseWriter.call canonicalKey)
        { w with
          header := Header.settle w.header
          sent := some (fixedStatus (op :: rest), Header.settle w.header) } := by
  cases op with
  | add key value => contradiction
  | set key value => contradiction
  | writeHeader code =>
    simp only [List.foldl_cons, ResponseWriter.call,
      ResponseWriter.writeHeader, hsent]
    rfl
  | write data =>
    simp only [List.foldl_cons, ResponseWriter.call, ResponseWriter.write,
      ResponseWriter.writeHeader, hsent]
    rfl

theorem foldl_headers {handler : List HandlerCall}
    (hall : ∀ op ∈ handler, op.isHeader = true) (w : ResponseWriter) :
    handler.foldl (ResponseWriter.call canonicalKey) w =
      { w with header := handler.foldl (Header.call canonicalKey) w.header } := by
  induction handler generalizing w with
  | nil => rfl
  | cons op rest ih =>
    have hop := hall op List.mem_cons_self
    rw [List.foldl_cons, ih fun other hother =>
      hall other (List.mem_cons_of_mem op hother)]
    cases op with
    | add key value => rfl
    | set key value => rfl
    | writeHeader code => contradiction
    | write data => contradiction

section Split

variable {handler : List HandlerCall}

omit canonicalKey

theorem fixedStatus_of_all (hall : handler.all HandlerCall.isHeader = true) :
    fixedStatus handler = 200 := by
  induction handler with
  | nil => rfl
  | cons op rest ih =>
    rw [List.all_cons, Bool.and_eq_true] at hall
    cases op with
    | add key value => exact ih hall.2
    | set key value => exact ih hall.2
    | writeHeader code => exact absurd hall.1 Bool.false_ne_true
    | write data => exact absurd hall.1 Bool.false_ne_true

theorem writes_of_all (hall : handler.all HandlerCall.isHeader = true) :
    writes handler = [] := by
  unfold writes
  rw [List.filter_eq_nil_iff]
  intro data hdata
  obtain ⟨op, hop, rfl⟩ := List.mem_map.mp hdata
  have hheader := List.all_eq_true.mp hall op hop
  cases op with
  | write data => contradiction
  | _ => simp [HandlerCall.written]

theorem exists_fixing (hall : handler.all HandlerCall.isHeader = false) :
    ∃ op rest, handler.dropWhile HandlerCall.isHeader = op :: rest ∧
      op.isHeader = false ∧ fixedStatus handler = fixedStatus (op :: rest) ∧
      writes handler = writes (op :: rest) := by
  induction handler with
  | nil => contradiction
  | cons op rest ih =>
    cases hop : op.isHeader with
    | false => exact ⟨op, rest, by simp [hop], hop, rfl, rfl⟩
    | true =>
      have hrest : rest.all HandlerCall.isHeader = false := by
        simpa [hop] using hall
      obtain ⟨first, later, hdrop, hfirst, hstatus, hwrites⟩ := ih hrest
      refine ⟨first, later, by simpa [hop] using hdrop, hfirst, ?_, ?_⟩
      · rw [← hstatus]
        cases op <;> first | rfl | contradiction
      · rw [← hwrites]
        cases op <;> first | rfl | contradiction

end Split

def reply (handler : List HandlerCall) : Reply :=
  (handler.foldl (ResponseWriter.call canonicalKey) .new).finish

/-- What a handler sends, and the header map that it leaves. -/
theorem reply_eq (handler : List HandlerCall) :
    let headers := Header.settle (openHeaders canonicalKey handler)
    reply canonicalKey handler = ⟨fixedStatus handler, headers,
        sentBody (fixedStatus handler) (Header.values headers contentLength)
          (writes handler)⟩ ∧
      (handler.foldl (ResponseWriter.call canonicalKey) .new).header =
        endHeaders canonicalKey handler := by
  have hsplit := List.takeWhile_append_dropWhile
    (p := HandlerCall.isHeader) (l := handler)
  have hfront : (handler.takeWhile HandlerCall.isHeader).foldl
      (ResponseWriter.call canonicalKey) .new =
        { ResponseWriter.new with
          header := openHeaders canonicalKey handler } :=
    foldl_headers canonicalKey (fun _ hop => List.mem_takeWhile_imp hop) _
  cases hall : handler.all HandlerCall.isHeader with
  | true =>
    have hopen : handler.takeWhile HandlerCall.isHeader = handler :=
      List.takeWhile_eq_self_iff.mpr (List.all_eq_true.mp hall)
    rw [hopen] at hfront
    rw [reply, hfront, fixedStatus_of_all hall, writes_of_all hall,
      endHeaders, if_pos hall, openHeaders, hopen]
    simp [ResponseWriter.finish, ResponseWriter.writeHeader,
      ResponseWriter.new, sentBody, accepted]
  | false =>
    obtain ⟨op, rest, hdrop, hop, hstatus, hwrites⟩ := exists_fixing hall
    have hrun : handler.foldl (ResponseWriter.call canonicalKey) .new = _ :=
      calc handler.foldl (ResponseWriter.call canonicalKey) .new
          = (op :: rest).foldl (ResponseWriter.call canonicalKey)
              { ResponseWriter.new with
                header := openHeaders canonicalKey handler } := by
            rw [← hfront, ← hdrop, ← List.foldl_append, hsplit]
        _ = _ := foldl_fixes canonicalKey hop rest rfl
    obtain ⟨hsent, hheader, hbody⟩ := foldl_of_sent canonicalKey (op :: rest)
      (rfl : ({ ResponseWriter.new with
        header := Header.settle (openHeaders canonicalKey handler)
        sent := some (fixedStatus (op :: rest), Header.settle
          (openHeaders canonicalKey handler)) } : ResponseWriter).sent = _)
    rw [← hrun] at hsent hheader hbody
    rw [endHeaders, if_neg (by simp [hall]), hdrop, hheader]
    refine ⟨?_, rfl⟩
    simp only [reply, ResponseWriter.finish, ResponseWriter.writeHeader,
      hsent, Option.getD_some, hbody, hstatus, hwrites, sentBody]
    rfl

def replayCalls (cached : CachedResponse) : List HandlerCall :=
  cached.headers.keys.map
      (fun key => .set key ((cached.headers.lookup key).getD [])) ++
    [.set xCache (ascii "HIT"), .writeHeader cached.statusCode,
      .write cached.body]

theorem replay_eq_reply (cached : CachedResponse) :
    replay canonicalKey cached = reply canonicalKey (replayCalls cached) := by
  rw [reply, replayCalls, List.foldl_append, List.foldl_map]
  rfl

theorem firstReply_eq_reply (handler : List HandlerCall) :
    firstReply canonicalKey handler =
      reply canonicalKey (handler ++ [.set xCache (ascii "MISS")]) := by
  rw [firstReply, writer_record, reply, List.foldl_append]
  rfl

end Handlers

/-- What the documentation of `http.CanonicalHeaderKey` says. -/
structure Canonical (canonicalKey : GoString → GoString) : Prop where
  idempotent : ∀ key, canonicalKey (canonicalKey key) = canonicalKey key
  xCache : canonicalKey xCache = xCache

def sentValues (name : GoString) (values : List GoString) : List GoString :=
  if name = contentLength ∧ invalidLength values = true then [] else values

theorem declaredLength_sentValues (name : GoString) (values : List GoString) :
    declaredLength (sentValues name values) = declaredLength values := by
  unfold sentValues
  split
  · next hinvalid =>
      have hnone : declaredLength values = none := by
        have hboth := hinvalid.2
        rw [invalidLength, Bool.and_eq_true] at hboth
        exact Option.isNone_iff_eq_none.mp hboth.2
      rw [hnone]
      rfl
  · rfl

section Values

variable {canonicalKey : GoString → GoString}

theorem values_insert (h : Header) (key name : GoString)
    (list : List GoString) :
    Header.values (h.insert key list) name =
      if name = key then list else Header.values h name := by
  unfold Header.values
  split
  · next hname => rw [hname, AList.lookup_insert, Option.getD_some]
  · next hname => rw [AList.lookup_insert_ne hname]

theorem values_settle (h : Header) (name : GoString) :
    Header.values (Header.settle h) name =
      sentValues name (Header.values h name) := by
  unfold Header.settle sentValues
  by_cases hname : name = contentLength
  · subst hname
    by_cases hinvalid : invalidLength (Header.values h contentLength) = true
    · rw [if_pos hinvalid, if_pos ⟨rfl, hinvalid⟩, Header.values,
        AList.lookup_erase]
      rfl
    · rw [if_neg hinvalid, if_neg fun hboth => hinvalid hboth.2]
  · rw [if_neg fun hboth : name = contentLength ∧ _ => hname hboth.1]
    split
    · rw [Header.values, AList.lookup_erase_ne hname, Header.values]
    · rfl

theorem lookup_fill {β : Type} (keys : List GoString) (f : GoString → β)
    (map : AList fun _ : GoString => β) (name : GoString) :
    (keys.foldl (fun map key => map.insert key (f key)) map).lookup name =
      if name ∈ keys then some (f name) else map.lookup name := by
  induction keys generalizing map with
  | nil => rfl
  | cons key rest ih =>
    rw [List.foldl_cons, ih]
    by_cases hrest : name ∈ rest
    · simp [hrest]
    · by_cases hkey : name = key
      · subst hkey
        simp [hrest]
      · simp [hrest, hkey, AList.lookup_insert_ne hkey]

theorem values_of_notMem {h : Header} {name : GoString} (hname : name ∉ h) :
    Header.values h name = [] := by
  rw [Header.values, AList.lookup_eq_none.mpr hname]
  rfl

def Header.Regular (canonicalKey : GoString → GoString) (h : Header) : Prop :=
  ∀ key ∈ h, canonicalKey key = key ∧ Header.values h key ≠ []

theorem Canonical.regular_insert (hcanonical : Canonical canonicalKey)
    {h : Header} (hregular : Header.Regular canonicalKey h) (name : GoString)
    {list : List GoString} (hlist : list ≠ []) :
    Header.Regular canonicalKey (h.insert (canonicalKey name) list) := by
  intro key hkey
  rw [values_insert]
  split
  · next hname => exact ⟨hname ▸ hcanonical.idempotent name, hlist⟩
  · next hname =>
      exact hregular key (((AList.mem_insert h).mp hkey).resolve_left hname)

theorem Canonical.regular_foldl (hcanonical : Canonical canonicalKey)
    (handler : List HandlerCall) {h : Header}
    (hregular : Header.Regular canonicalKey h) :
    Header.Regular canonicalKey
      (handler.foldl (Header.call canonicalKey) h) := by
  induction handler generalizing h with
  | nil => exact hregular
  | cons op rest ih =>
    rw [List.foldl_cons]
    refine ih ?_
    cases op with
    | add name value =>
      exact hcanonical.regular_insert hregular name
        (List.append_ne_nil_of_right_ne_nil _ (List.cons_ne_nil _ _))
    | set name value =>
      exact hcanonical.regular_insert hregular name (List.cons_ne_nil _ _)
    | writeHeader code => exact hregular
    | write data => exact hregular

theorem Header.Regular.settle {h : Header}
    (hregular : Header.Regular canonicalKey h) :
    Header.Regular canonicalKey (Header.settle h) := by
  unfold Header.settle
  split
  · intro key hkey
    rw [AList.mem_erase] at hkey
    rw [Header.values, AList.lookup_erase_ne hkey.1]
    exact hregular key hkey.2
  · exact hregular

theorem Canonical.regular_endHeaders (hcanonical : Canonical canonicalKey)
    (handler : List HandlerCall) :
    Header.Regular canonicalKey (endHeaders canonicalKey handler) := by
  have hempty : Header.Regular canonicalKey ∅ :=
    fun _ hmem => absurd hmem (AList.notMem_empty _)
  unfold endHeaders
  split
  · exact hcanonical.regular_foldl handler hempty
  · exact hcanonical.regular_foldl _ (hcanonical.regular_foldl _ hempty).settle

/-- Only the first value of every header is stored. -/
theorem lookup_cachedResponse (hcanonical : Canonical canonicalKey)
    (handler : List HandlerCall) (name : GoString) :
    ((record canonicalKey handler).cachedResponse canonicalKey).headers.lookup
        name =
      if name ∈ endHeaders canonicalKey handler then
        some ((Header.values (endHeaders canonicalKey handler) name).headD [])
      else none := by
  have hheader : (record canonicalKey handler).writer.header =
      endHeaders canonicalKey handler := by
    rw [writer_record, (reply_eq canonicalKey handler).2]
  rw [ResponseRecorder.cachedResponse, hheader, lookup_fill]
  by_cases hname : name ∈ endHeaders canonicalKey handler
  · rw [if_pos (AList.mem_keys.mp hname), if_pos hname, Header.get,
      (hcanonical.regular_endHeaders handler name hname).1]
  · rw [if_neg fun hmem => hname (AList.mem_keys.mpr hmem), if_neg hname]
    rfl

theorem foldl_setHeaders (keys : List GoString) (f : GoString → GoString)
    (hkeys : ∀ key ∈ keys, canonicalKey key = key) (h : Header) :
    (keys.map fun key => HandlerCall.set key (f key)).foldl
        (Header.call canonicalKey) h =
      keys.foldl (fun h key => h.insert key [f key]) h := by
  induction keys generalizing h with
  | nil => rfl
  | cons key rest ih =>
    rw [List.map_cons, List.foldl_cons, List.foldl_cons, ih fun other hother =>
      hkeys other (List.mem_cons_of_mem key hother)]
    simp only [Header.call, Header.set, hkeys key List.mem_cons_self]

theorem values_open_replayCalls (hcanonical : Canonical canonicalKey)
    (handler : List HandlerCall) {name : GoString} (hname : name ≠ xCache) :
    Header.values (openHeaders canonicalKey (replayCalls
        ((record canonicalKey handler).cachedResponse canonicalKey))) name =
      (Header.values (endHeaders canonicalKey handler) name).take 1 := by
  have hlookup := lookup_cachedResponse hcanonical handler
  have hregular := hcanonical.regular_endHeaders handler
  have hkeys : ∀ key, key ∈ ((record canonicalKey handler).cachedResponse
      canonicalKey).headers.keys ↔ key ∈ endHeaders canonicalKey handler := by
    intro key
    rw [← AList.mem_keys, ← AList.lookup_isSome, hlookup]
    by_cases hkey : key ∈ endHeaders canonicalKey handler <;> simp [hkey]
  generalize (record canonicalKey handler).cachedResponse canonicalKey = cached
    at hlookup hkeys
  have hopen : openHeaders canonicalKey (replayCalls cached) =
      (cached.headers.keys.foldl (fun h key =>
        h.insert key [(cached.headers.lookup key).getD []])
          (∅ : Header)).insert xCache [ascii "HIT"] := by
    have hfront : (replayCalls cached).takeWhile HandlerCall.isHeader =
        cached.headers.keys.map (fun key =>
          .set key ((cached.headers.lookup key).getD [])) ++
            [.set xCache (ascii "HIT")] := by
      rw [replayCalls, List.takeWhile_append_of_pos]
      · rfl
      · intro op hop
        obtain ⟨key, _, rfl⟩ := List.mem_map.mp hop
        rfl
    rw [openHeaders, hfront, headersAfter, List.foldl_append, foldl_setHeaders
      _ _ fun key hkey => (hregular key ((hkeys key).mp hkey)).1]
    simp only [List.foldl_cons, List.foldl_nil, Header.call, Header.set,
      hcanonical.xCache]
  rw [hopen, values_insert, if_neg hname, Header.values, lookup_fill]
  by_cases hmem : name ∈ endHeaders canonicalKey handler
  · rw [if_pos ((hkeys name).mpr hmem), hlookup, if_pos hmem]
    cases hvalues : Header.values (endHeaders canonicalKey handler) name with
    | nil => exact absurd hvalues (hregular name hmem).2
    | cons first rest => rfl
  · rw [if_neg fun hin => hmem ((hkeys name).mp hin), values_of_notMem hmem]
    rfl

theorem values_open_append (hcanonical : Canonical canonicalKey)
    (handler : List HandlerCall) {name : GoString} (hname : name ≠ xCache) :
    Header.values (openHeaders canonicalKey
        (handler ++ [.set xCache (ascii "MISS")])) name =
      Header.values (openHeaders canonicalKey handler) name := by
  unfold openHeaders
  rw [List.takeWhile_append]
  split
  · next hlength =>
      -- nothing was sent before the handler returned
      rw [(List.takeWhile_prefix _).eq_of_length hlength, headersAfter,
        List.foldl_append]
      change Header.values (Header.set canonicalKey _ xCache _) name = _
      rw [Header.set, hcanonical.xCache, values_insert, if_neg hname]
      rfl
  · rfl

theorem fixedStatus_append (handler : List HandlerCall)
    (key value : GoString) :
    fixedStatus (handler ++ [.set key value]) = fixedStatus handler := by
  induction handler with
  | nil => rfl
  | cons op rest ih =>
    cases op with
    | add _ _ => exact ih
    | set _ _ => exact ih
    | writeHeader _ => rfl
    | write _ => rfl

theorem fixedStatus_replayCalls (cached : CachedResponse) :
    fixedStatus (replayCalls cached) = cached.statusCode := by
  unfold replayCalls
  induction cached.headers.keys with
  | nil => rfl
  | cons key rest ih => exact ih

end Values

section Bodies

theorem accepted_of_exceeded {declared : Option ℕ} {written : ℕ}
    (hexceeded : declared.any (· < written) = true) (data : List Bytes) :
    accepted declared written data = [] := by
  induction data generalizing written with
  | nil => rfl
  | cons first rest ih =>
    have hmore : declared.any (· < written + first.length) = true := by
      cases declared with
      | none => contradiction
      | some n =>
        simp only [Option.any_some, decide_eq_true_eq] at hexceeded ⊢
        omega
    rw [accepted, if_pos hmore, ih hmore, List.nil_append]

theorem accepted_of_fits {declared : Option ℕ} (data : List Bytes)
    {written : ℕ}
    (hfits : ∀ n ∈ declared, written + data.flatten.length ≤ n) :
    accepted declared written data = data.flatten := by
  induction data generalizing written with
  | nil => rfl
  | cons first rest ih =>
    rw [List.flatten_cons] at hfits ⊢
    have hfirst : declared.any (· < written + first.length) = false := by
      cases declared with
      | none => rfl
      | some n =>
        have := hfits n rfl
        rw [List.length_append] at this
        simp only [Option.any_some, decide_eq_false_iff_not]
        omega
    rw [accepted, hfirst, if_neg Bool.false_ne_true, ih fun n hn => by
      have := hfits n hn
      rw [List.length_append] at this
      omega]

/-- All at once arrives what arrives piece by piece if it is all within the
declared length, or if its first piece already is not. -/
theorem accepted_flatten_iff (declared : Option ℕ) {data : List Bytes}
    (hdata : ∀ piece ∈ data, piece ≠ []) :
    accepted declared 0 [data.flatten] = accepted declared 0 data ↔
      ∀ n ∈ declared, data.flatten.length ≤ n ∨
        ∀ first ∈ data.head?, n < first.length := by
  cases declared with
  | none => simp [accepted_of_fits]
  | some n =>
    by_cases hfits : data.flatten.length ≤ n
    · refine iff_of_true ?_ fun m hm => .inl (Option.some.inj hm ▸ hfits)
      rw [accepted_of_fits data fun m hm => by
          rw [Nat.zero_add, ← Option.some.inj hm]
          exact hfits,
        accepted_of_fits _ fun m hm => by
          rw [List.flatten_singleton, Nat.zero_add, ← Option.some.inj hm]
          exact hfits,
        List.flatten_singleton]
    · have hrefused : accepted (some n) 0 [data.flatten] = [] := by
        have hover : (some n).any (· < 0 + data.flatten.length) = true := by
          simp only [Option.any_some, decide_eq_true_eq]
          omega
        rw [accepted, if_pos hover]
        rfl
      rw [hrefused]
      cases data with
      | nil => simp at hfits
      | cons first rest =>
        by_cases hfirst : n < first.length
        · have hover : (some n).any (· < 0 + first.length) = true := by
            simpa using hfirst
          refine iff_of_true ?_ fun m hm => .inr ?_
          · rw [accepted, if_pos hover, accepted_of_exceeded hover]
            rfl
          · simpa [← Option.some.inj hm] using hfirst
        · have hkept : (some n).any (· < 0 + first.length) = false := by
            simpa using hfirst
          refine iff_of_false ?_ ?_
          · rw [accepted, hkept, if_neg Bool.false_ne_true]
            intro hnil
            exact hdata first List.mem_cons_self
              (List.append_eq_nil_iff.mp hnil.symm).1
          · intro hall
            rcases hall n rfl with hle | hall
            · exact hfits hle
            · exact hfirst (hall first rfl)

theorem sentBody_flatten_iff (status : ℤ) (values : List GoString)
    {data : List Bytes} (hdata : ∀ piece ∈ data, piece ≠ []) :
    sentBody status values [data.flatten] = sentBody status values data ↔
      (bodyAllowedForStatus status = true →
        ∀ n ∈ declaredLength values, data.flatten.length ≤ n ∨
          ∀ first ∈ data.head?, n < first.length) := by
  unfold sentBody
  cases bodyAllowedForStatus status with
  | false => simp
  | true =>
    simp only [if_true, forall_const]
    exact accepted_flatten_iff _ hdata

theorem ne_nil_of_mem_writes (handler : List HandlerCall) (piece : Bytes)
    (hpiece : piece ∈ writes handler) : piece ≠ [] := by
  simpa using (List.mem_filter.mp hpiece).2

theorem writes_replayCalls (cached : CachedResponse) (status : ℤ)
    (values : List GoString) :
    sentBody status values (writes (replayCalls cached)) =
      sentBody status values [cached.body] := by
  have hwrites : writes (replayCalls cached) =
      [cached.body].filter (· ≠ []) := by
    have hfront : (cached.headers.keys.map fun key =>
        HandlerCall.written (.set key ((cached.headers.lookup key).getD []))).filter
          (· ≠ []) = [] := by
      simp [HandlerCall.written]
    unfold writes replayCalls
    rw [List.map_append, List.filter_append, List.map_map]
    exact congrArg (· ++ _) hfront
  rw [hwrites]
  by_cases hempty : cached.body = []
  · simp [hempty, sentBody, accepted]
  · simp [hempty]

end Bodies

/-! ## First request and HIT -/

def Reply.SameApartFromXCache (a b : Reply) : Prop :=
  a.status = b.status ∧ a.body = b.body ∧
    ∀ name, name ≠ xCache →
      Header.values a.headers name = Header.values b.headers name

/-- The last WriteHeader has the status that the client got; every header was
sent with one value at most, the first one that it has in the end; and of a
body, if there is one, either all is within the declared Content-Length or
already the first Write is beyond it. -/
structure Replayable (canonicalKey : GoString → GoString)
    (handler : List HandlerCall) : Prop where
  status : lastStatus handler = fixedStatus handler
  headers : ∀ name, name ≠ xCache →
    sentValues name
        ((Header.values (endHeaders canonicalKey handler) name).take 1) =
      sentValues name (Header.values (openHeaders canonicalKey handler) name)
  body : bodyAllowedForStatus (fixedStatus handler) = true →
    ∀ n ∈ declaredLength
        (Header.values (openHeaders canonicalKey handler) contentLength),
      (writes handler).flatten.length ≤ n ∨
        ∀ first ∈ (writes handler).head?, n < first.length

theorem firstReply_sends {canonicalKey : GoString → GoString}
    (hcanonical : Canonical canonicalKey) (handler : List HandlerCall) :
    let sent := firstReply canonicalKey handler
    sent.status = fixedStatus handler ∧
      (∀ name, name ≠ xCache → Header.values sent.headers name =
        sentValues name
          (Header.values (openHeaders canonicalKey handler) name)) ∧
      sent.body = sentBody (fixedStatus handler)
        (Header.values sent.headers contentLength) (writes handler) := by
  have hwrites : writes (handler ++ [.set xCache (ascii "MISS")]) =
      writes handler := by
    simp [writes, HandlerCall.written]
  simp only [firstReply_eq_reply,
    (reply_eq canonicalKey (handler ++ [.set xCache (ascii "MISS")])).1,
    fixedStatus_append, hwrites]
  refine ⟨trivial, fun name hname => ?_, trivial⟩
  rw [values_settle, values_open_append hcanonical handler hname]

theorem replay_sends {canonicalKey : GoString → GoString}
    (hcanonical : Canonical canonicalKey) (handler : List HandlerCall) :
    let sent := replay canonicalKey
      ((record canonicalKey handler).cachedResponse canonicalKey)
    sent.status = lastStatus handler ∧
      (∀ name, name ≠ xCache → Header.values sent.headers name =
        sentValues name
          ((Header.values (endHeaders canonicalKey handler) name).take 1)) ∧
      sent.body = sentBody (lastStatus handler)
        (Header.values sent.headers contentLength)
        [(writes handler).flatten] := by
  have hvalues := @values_open_replayCalls canonicalKey hcanonical handler
  have hstatus := statusCode_record canonicalKey handler
  have hbody := body_record canonicalKey handler
  simp only [replay_eq_reply, (reply_eq canonicalKey _).1,
    fixedStatus_replayCalls, writes_replayCalls, values_settle]
  refine ⟨hstatus, fun name hname => ?_, ?_⟩
  · rw [hvalues hname]
  · rw [← hstatus, ← hbody]
    rfl

theorem same_replay_iff {canonicalKey : GoString → GoString}
    (hcanonical : Canonical canonicalKey) (handler : List HandlerCall) :
    (replay canonicalKey ((record canonicalKey handler).cachedResponse
        canonicalKey)).SameApartFromXCache (firstReply canonicalKey handler) ↔
      Replayable canonicalKey handler := by
  have hlength : contentLength ≠ xCache := by decide
  obtain ⟨hstatus, hvalues, hbody⟩ := firstReply_sends hcanonical handler
  obtain ⟨hstatus', hvalues', hbody'⟩ := replay_sends hcanonical handler
  have hpieces := sentBody_flatten_iff (fixedStatus handler)
    (sentValues contentLength (Header.values
      (openHeaders canonicalKey handler) contentLength))
    (ne_nil_of_mem_writes handler)
  rw [declaredLength_sentValues] at hpieces
  unfold Reply.SameApartFromXCache
  rw [hstatus, hstatus', hbody, hbody']
  constructor
  · rintro ⟨hstatuses, hbodies, hheaders⟩
    refine ⟨hstatuses, fun name hname => ?_, ?_⟩
    · rw [← hvalues' name hname, hheaders name hname, hvalues name hname]
    · rw [hstatuses, hheaders contentLength hlength,
        hvalues contentLength hlength] at hbodies
      exact hpieces.mp hbodies
  · rintro ⟨hstatuses, hheaders, hbodies⟩
    have hall : ∀ name, name ≠ xCache → Header.values
        (replay canonicalKey ((record canonicalKey handler).cachedResponse
          canonicalKey)).headers name =
        Header.values (firstReply canonicalKey handler).headers name := by
      intro name hname
      rw [hvalues' name hname, hheaders name hname, hvalues name hname]
    refine ⟨hstatuses, ?_, hall⟩
    rw [hstatuses, hall contentLength hlength, hvalues contentLength hlength]
    exact hpieces.mpr hbodies

/-- A GET request misses and its response is stored; later an identical one
is a HIT on the stored response.  The two responses are the same, apart from
`X-Cache`, if and only if the handler is replayable. -/
theorem hit_replays_iff {σ : Type} {impl : StoreImpl σ}
    (z : Serializer CachedResponse Unit)
    {canonicalKey : GoString → GoString} (hcanonical : Canonical canonicalKey)
    (sha256Hex : GoString → GoString) (c : GoString) (ttl : Duration)
    {req : Request} (hget : req.method = ascii "GET")
    (handler : List HandlerCall) {g missed stored later final : Grid σ}
    {choices rest rest' choices' rest'' : ℕ → Grid.Choice}
    (hmiss : (Grid.get z c (cacheKey sha256Hex req) (.other ())).alone
      (Grid.machine impl) Grid.Op.timed choices g = some (none, rest, missed))
    (hstatus : 200 ≤ lastStatus handler ∧ lastStatus handler < 400)
    (hstored : (Grid.set z c (cacheKey sha256Hex req)
      (.other ((record canonicalKey handler).cachedResponse canonicalKey))
      ttl).alone (Grid.machine impl) Grid.Op.timed rest missed =
        some (none, rest', stored))
    (hhit : (Grid.get z c (cacheKey sha256Hex req) (.other ())).alone
      (Grid.machine impl) Grid.Op.timed choices' later =
        some (some (.other ((record canonicalKey handler).cachedResponse
          canonicalKey)), rest'', final)) :
    ∃ first second,
      (httpCache canonicalKey sha256Hex z c ttl req handler).alone
          (Grid.machine impl) Grid.Op.timed choices g =
        some (first, rest', stored) ∧
      (httpCache canonicalKey sha256Hex z c ttl req handler).alone
          (Grid.machine impl) Grid.Op.timed choices' later =
        some (second, rest'', final) ∧
      (second.SameApartFromXCache first ↔ Replayable canonicalKey handler) := by
  refine ⟨_, _, ?_, ?_, same_replay_iff hcanonical handler⟩
  · unfold httpCache
    rw [if_neg (not_not.mpr hget), Prog.alone_bind_of_eq hmiss]
    simp only [statusCode_record, hstatus, and_self, if_true]
    rw [Prog.alone_bind_of_eq hstored]
    rfl
  · unfold httpCache
    rw [if_neg (not_not.mpr hget), Prog.alone_bind_of_eq hhit]
    rfl

def serializerOf (response : CachedResponse) :
    Serializer CachedResponse Unit where
  toMsgpack := .int64
  marshalOther value := if value = response then .ok [1] else .error []
  unmarshalOther _ _ := .ok response

theorem canonical_id : Canonical id := ⟨fun _ => rfl, rfl⟩

def getData : Request := ⟨ascii "GET", ascii "/api/data"⟩

def freshCache : Grid MemoryStore :=
  Grid.launchLocal ⟨.partitioned, 0⟩
    (MemoryStore.new 1 Nat.one_pos 0 true true)

/-- The handler of the tests: one header, one WriteHeader, one Write. -/
def hello : List HandlerCall :=
  [.set (ascii "X-Custom") (ascii "value"), .writeHeader 200,
    .write (ascii "hello")]

theorem hit_replays_hello :
    Replayable id hello ∧
    ∃ rest rest' stored final first second,
      (httpCache id id (serializerOf ((record id hello).cachedResponse id)) []
          0 getData hello).alone (Grid.machine (MemoryStore.impl .int64))
          Grid.Op.timed (Grid.Timeline.instant 0).choice freshCache =
        some (first, rest, stored) ∧
      (httpCache id id (serializerOf ((record id hello).cachedResponse id)) []
          0 getData hello).alone (Grid.machine (MemoryStore.impl .int64))
          Grid.Op.timed rest stored =
        some (second, rest', final) ∧
      second.SameApartFromXCache first := by
  have hreplayable : Replayable id hello := by
    have hopen : openHeaders id hello =
        (∅ : Header).insert (ascii "X-Custom") [ascii "value"] := rfl
    have hend : endHeaders id hello = openHeaders id hello := rfl
    refine ⟨rfl, fun name _ => ?_, ?_⟩
    · rw [hend, hopen, values_insert]
      split <;> rfl
    · rw [hopen, values_insert]
      intro _ n hn
      exact absurd hn (Option.not_mem_none n)
  refine ⟨hreplayable, ?_⟩
  have hrun : ((Grid.get (serializerOf ((record id hello).cachedResponse id))
      [] (cacheKey id getData) (.other ())).alone
        (Grid.machine (MemoryStore.impl .int64)) Grid.Op.timed
        (Grid.Timeline.instant 0).choice freshCache).any (fun missed =>
      missed.1 = none ∧
      ((Grid.set (serializerOf ((record id hello).cachedResponse id)) []
        (cacheKey id getData) (.other ((record id hello).cachedResponse id))
        0).alone (Grid.machine (MemoryStore.impl .int64)) Grid.Op.timed
        missed.2.1 missed.2.2).any (fun stored =>
      stored.1 = none ∧
      ((Grid.get (serializerOf ((record id hello).cachedResponse id)) []
        (cacheKey id getData) (.other ())).alone
        (Grid.machine (MemoryStore.impl .int64)) Grid.Op.timed stored.2.1
        stored.2.2).any fun hit =>
      hit.1 = some (.other ((record id hello).cachedResponse id)))) = true := by
    decide +kernel
  obtain ⟨⟨_, rest, missed⟩, hmiss, htest⟩ := (Option.any_eq_true _ _).mp hrun
  obtain ⟨rfl, htest⟩ := of_decide_eq_true htest
  obtain ⟨⟨_, rest', stored⟩, hstored, htest⟩ :=
    (Option.any_eq_true _ _).mp htest
  obtain ⟨rfl, htest⟩ := of_decide_eq_true htest
  obtain ⟨⟨_, rest'', final⟩, hhit, htest⟩ := (Option.any_eq_true _ _).mp htest
  obtain rfl := of_decide_eq_true htest
  obtain ⟨first, second, hfirst, hsecond, hsame⟩ := hit_replays_iff _
    canonical_id id [] 0 (rfl : getData.method = ascii "GET") hello hmiss
    (by decide) hstored hhit
  exact ⟨rest', rest'', stored, final, first, second, hfirst, hsecond,
    hsame.mpr hreplayable⟩

def twoReplies (handler : List HandlerCall) : Option (Reply × Reply) :=
  let serve := httpCache id id
    (serializerOf ((record id handler).cachedResponse id)) [] 0 getData handler
  (serve.alone (Grid.machine (MemoryStore.impl .int64)) Grid.Op.timed
    (Grid.Timeline.instant 0).choice freshCache).bind fun first =>
      (serve.alone (Grid.machine (MemoryStore.impl .int64)) Grid.Op.timed
        first.2.1 first.2.2).map fun second => (first.1, second.1)

/-- The client gets two cookies from the handler and one from the cache; the
status that was sent is not the one that is replayed; and of a body that goes
beyond its declared length nothing is replayed. -/
theorem hit_loses_cookie :
    ((twoReplies [.add (ascii "Set-Cookie") (ascii "a=1"),
        .add (ascii "Set-Cookie") (ascii "b=2"), .writeHeader 200,
        .write (ascii "hello")]).map fun replies =>
      (Header.values replies.1.headers (ascii "Set-Cookie"),
        Header.values replies.2.headers (ascii "Set-Cookie"),
        Header.values replies.2.headers xCache)) =
      some ([ascii "a=1", ascii "b=2"], [ascii "a=1"], [ascii "HIT"]) ∧
    ((twoReplies [.writeHeader 201, .writeHeader 200]).map fun replies =>
      (replies.1.status, replies.2.status,
        Header.values replies.2.headers xCache)) =
      some (201, 200, [ascii "HIT"]) ∧
    ((twoReplies [.set contentLength (ascii "5"), .write (ascii "hello"),
        .write (ascii "world")]).map fun replies =>
      (replies.1.body, replies.2.body,
        Header.values replies.2.headers xCache)) =
      some (ascii "hello", [], [ascii "HIT"]) := by
  refine ⟨?_, ?_, ?_⟩ <;> decide +kernel

end Middleware

end CacheGrid
