import OsvKernel.Lines

/-! The request parser of the http server and what connection::do_read does with each read. A byte is the character of
its code. -/
namespace OsvKernel.HttpConnection
open List
open Lines (isSpace decimal signed)

inductive Result
  | good
  | bad
  | indeterminate
  deriving DecidableEq

inductive State
  | methodStart
  | method
  | uri
  | httpVersionH
  | httpVersionT1
  | httpVersionT2
  | httpVersionP
  | httpVersionSlash
  | httpVersionMajorStart
  | httpVersionMajor
  | httpVersionMinorStart
  | httpVersionMinor
  | expectingNewline1
  | headerLineStart
  | headerLws
  | headerName
  | spaceBeforeHeaderValue
  | headerValue
  | expectingNewline2
  | expectingNewline3
  deriving DecidableEq

inductive Ctclass
  | other
  | multipart
  | appXWwwUrlencoded
  deriving DecidableEq

structure Header where
  name : List Char := []
  value : List Char := []
  deriving DecidableEq

structure Request where
  method : List Char := []
  uri : List Char := []
  httpVersionMajor : Int := 0
  httpVersionMinor : Int := 0
  contentTypeClass : Ctclass := .other
  contentLength : Nat := 0
  headers : List Header := []
  content : List Char := []
  deriving DecidableEq

def isChar (c : Char) : Bool := c.toNat ≤ 127
def isCtl (c : Char) : Bool := c.toNat ≤ 31 || c.toNat = 127

def isTspecial (c : Char) : Bool :=
  ['(',')','<','>','@',',',';',':','\\','"','/','[',']','?','=','\x7b','\x7d',' ','\t'].contains c

def isDigit (c : Char) : Bool := '0' ≤ c && c ≤ '9'
def isToken (c : Char) : Bool := !(!isChar c || isCtl c || isTspecial c)

def back (headers : List Header) (f : Header → Header) : List Header :=
  headers.dropLast ++ headers.getLast?.toList.map f

def pushDigit (v : Int) (c : Char) : Int := (v * 10 + c.toNat - '0'.toNat).bmod (2 ^ 32)

def consume (state : State) (req : Request) (input : Char) : Result × State × Request :=
  let bad := (Result.bad,state,req)
  let goes (next : State) (req : Request) := (Result.indeterminate,next,req)
  let expect (c : Char) (next : State) := if input = c then goes next req else bad
  match state with
  | .methodStart => if isToken input then goes .method { req with method := req.method ++ [input] } else bad
  | .method =>
    if input = ' ' then goes .uri req
    else if isToken input then goes .method { req with method := req.method ++ [input] } else bad
  | .uri =>
    if input = ' ' then goes .httpVersionH req
    else if isCtl input then bad else goes .uri { req with uri := req.uri ++ [input] }
  | .httpVersionH => expect 'H' .httpVersionT1
  | .httpVersionT1 => expect 'T' .httpVersionT2
  | .httpVersionT2 => expect 'T' .httpVersionP
  | .httpVersionP => expect 'P' .httpVersionSlash
  | .httpVersionSlash =>
    if input = '/' then goes .httpVersionMajorStart { req with httpVersionMajor := 0, httpVersionMinor := 0 } else bad
  | .httpVersionMajorStart =>
    if isDigit input then
      goes .httpVersionMajor { req with httpVersionMajor := pushDigit req.httpVersionMajor input }
    else bad
  | .httpVersionMajor =>
    if input = '.' then goes .httpVersionMinorStart req
    else if isDigit input then
      goes .httpVersionMajor { req with httpVersionMajor := pushDigit req.httpVersionMajor input }
    else bad
  | .httpVersionMinorStart =>
    if isDigit input then
      goes .httpVersionMinor { req with httpVersionMinor := pushDigit req.httpVersionMinor input }
    else bad
  | .httpVersionMinor =>
    if input = '\r' then goes .expectingNewline1 req
    else if isDigit input then
      goes .httpVersionMinor { req with httpVersionMinor := pushDigit req.httpVersionMinor input }
    else bad
  | .expectingNewline1 => expect '\n' .headerLineStart
  | .headerLineStart =>
    if input = '\r' then goes .expectingNewline3 req
    else if req.headers ≠ [] ∧ (input = ' ' ∨ input = '\t') then goes .headerLws req
    else if isToken input then goes .headerName { req with headers := req.headers ++ [{ name := [input] }] } else bad
  | .headerLws =>
    if input = '\r' then goes .expectingNewline2 req
    else if input = ' ' ∨ input = '\t' then goes .headerLws req
    else if isCtl input then bad
    else goes .headerValue { req with headers := back req.headers fun h => { h with value := h.value ++ [input] } }
  | .headerName =>
    if input = ':' then goes .spaceBeforeHeaderValue req
    else if isToken input then
      goes .headerName { req with headers := back req.headers fun h => { h with name := h.name ++ [input] } }
    else bad
  | .spaceBeforeHeaderValue => expect ' ' .headerValue
  | .headerValue =>
    if input = '\r' then goes .expectingNewline2 req
    else if isCtl input then bad
    else goes .headerValue { req with headers := back req.headers fun h => { h with value := h.value ++ [input] } }
  | .expectingNewline2 => expect '\n' .headerLineStart
  | .expectingNewline3 => if input = '\n' then (.good,state,req) else bad

def parse (state : State) (req : Request) : List Char → Result × State × Request × List Char
  | [] => (.indeterminate,state,req,[])
  | c::rest =>
    match consume state req c with
    | (.indeterminate,state,req) => parse state req rest
    | (result,state,req) => (result,state,req,rest)

structure Connection where
  parser : State := .methodStart
  request : Request := {}
  boundary : List Char := []
  inMessage : List Char := []
  deriving DecidableEq

def getHeader (headers : List Header) (name : List Char) : List Char :=
  ((headers.find? fun h => h.name.map Char.toLower = name.map Char.toLower).map Header.value).getD []

def readSize (s : List Char) : Nat :=
  let number := signed (s.dropWhile isSpace)
  let magnitude := decimal (number.2.takeWhile Char.isDigit)
  if 2 ^ 64 ≤ magnitude then 2 ^ 64 - 1 else if number.1 then (2 ^ 64 - magnitude) % 2 ^ 64 else magnitude

def lengthName : List Char := ['C','o','n','t','e','n','t','-','L','e','n','g','t','h']
def typeName : List Char := ['C','o','n','t','e','n','t','-','T','y','p','e']

def multipartMark : List Char :=
  ['m','u','l','t','i','p','a','r','t','/','f','o','r','m','-','d','a','t','a',';']

def urlencodedMark : List Char :=
  ['a','p','p','l','i','c','a','t','i','o','n','/','x','-','w','w','w','-','f','o','r','m','-','u','r','l','e','n','c',
    'o','d','e','d']

def boundaryMark : List Char := ['b','o','u','n','d','a','r','y','=']
def find (s pattern : List Char) : Nat := (s.tails.findIdx? pattern.isPrefixOf).getD (2 ^ 64 - 1)

def setContentType (k : Connection) : Connection :=
  let lng := getHeader k.request.headers lengthName
  let length := if lng ≠ [] then readSize lng else k.request.contentLength
  let ct := getHeader k.request.headers typeName
  let other := { k with request.contentTypeClass := .other, request.contentLength := length }
  if multipartMark <+: ct then
    let p := find ct boundaryMark
    if 0 < p then
      let boundry := ct.drop ((p + 9) % 2 ^ 64)
      { k with
        boundary := boundry
        request.contentTypeClass := .multipart
        request.contentLength := ((length - boundry.length - 8 : Int) % 2 ^ 64).toNat }
    else other
  else if urlencodedMark <+: ct then { other with request.contentTypeClass := .appXWwwUrlencoded }
  else other

inductive Outcome
  | doRead (k : Connection)
  | handleRequest (k : Connection)
  | badRequest
  | lengthError

def maxSize : Nat := 2 ^ 63 - 1

def append (k : Connection) (bytes : List Char) (next : Connection → Outcome) : Outcome :=
  if k.request.content.length + bytes.length ≤ maxSize then
    let k := { k with request.content := k.request.content ++ bytes }
    if k.request.content.length < k.request.contentLength then .doRead k else next k
  else .lengthError

def onGood (k : Connection) (rest : List Char) : Outcome :=
  let k := setContentType k
  if k.request.contentTypeClass = .multipart then .handleRequest { k with inMessage := rest }
  else if 0 < k.request.contentLength then append k rest .handleRequest
  else .handleRequest k

def onParse (k : Connection) (bytes : List Char) : Outcome :=
  match parse k.parser k.request bytes with
  | (.good,state,req,rest) => onGood { k with parser := state, request := req } rest
  | (.bad,_,_,_) => .badRequest
  | (.indeterminate,state,req,_) => .doRead { k with parser := state, request := req }

def onRead (k : Connection) (bytes : List Char) : Outcome :=
  if 0 < k.request.contentLength then append k bytes fun k => onParse k bytes else onParse k bytes

def calls (k : Connection) : List (List Char) → List Request
  | [] => []
  | bytes::reads =>
    match onRead k bytes with
    | .doRead k => calls k reads
    | .handleRequest k => [k.request]
    | _ => []

def number (s : List Char) : List Char := (s.dropWhile isSpace).takeWhile Char.isDigit

structure Message where
  header : List Char
  request : Request
  valid : parse .methodStart {} header = (.good,.expectingNewline3,request,[])
  body : List Char
  stated : number (getHeader request.headers lengthName) ≠ []
  length : decimal (number (getHeader request.headers lengthName)) = body.length
  single : ¬multipartMark <+: getHeader request.headers typeName

def Message.bytes (m : Message) : List Char := m.header ++ m.body
def Message.size (m : Message) : Nat := readSize (getHeader m.request.headers lengthName)

def Message.expected (m : Message) : Request :=
  { m.request with
    contentTypeClass :=
      if urlencodedMark <+: getHeader m.request.headers typeName then .appXWwwUrlencoded else .other
    contentLength := m.size
    content := m.body }

structure Delivery (bytes : List Char) where
  chunks : List (List Char)
  sizes : ∀ c ∈ chunks, c ≠ [] ∧ c.length ≤ 8192
  whole : chunks.flatten = bytes

def Framed (m : Message) (chunks : List (List Char)) : Prop :=
  ∃ last, chunks.getLast? = some last ∧
    (m.body.length < last.length ∨ last = ['\n'] ∧ m.body.length ≤ maxSize)

variable {s t : State} {q r : Request} {a b : List Char} {k : Connection} {chunks : List (List Char)}

open Message

lemma consumeKeeps (s : State) (q : Request) (c : Char) :
    (consume s q c).2.2.contentLength = q.contentLength ∧ (consume s q c).2.2.content = q.content := by
  cases s <;> unfold consume <;> dsimp only <;> (repeat' split) <;> exact ⟨rfl,rfl⟩

lemma parseFirst (good : parse s q (a ++ b) = (.good,t,r,[])) (more : b ≠ []) :
    ∃ u p, parse s q a = (.indeterminate,u,p,[]) ∧ parse u p b = (.good,t,r,[]) ∧
      p.contentLength = q.contentLength ∧ p.content = q.content := by
  induction a generalizing s q with
  | nil => exact ⟨s,q,rfl,good,rfl,rfl⟩
  | cons c a ih => ?_
  have keeps := consumeKeeps s q c
  rw [cons_append,parse] at good
  rw [parse]
  split at good
  · next step =>
    rw [step] at keeps
    obtain ⟨u,p,all,last,length,content⟩ := ih good
    exact ⟨u,p,all,last,length.trans keeps.1,content.trans keeps.2⟩
  · simp [more] at good

lemma parseGood (good : parse s q a = (.good,t,r,[])) : parse s q (a ++ b) = (.good,t,r,b) ∧ r.content = q.content := by
  induction a generalizing s q with
  | nil => cases good
  | cons c a ih => ?_
  have keeps := consumeKeeps s q c
  rw [parse] at good
  rw [cons_append,parse]
  split at good
  · next step =>
    rw [step] at keeps
    exact ⟨(ih good).1,(ih good).2.trans keeps.2⟩
  next step =>
  rw [step] at keeps
  cases good
  exact ⟨rfl,keeps.2⟩

lemma Message.sizeEq (m : Message) : m.size = min m.body.length (2 ^ 64 - 1) := by
  have stated := m.stated
  have length := m.length
  rw [number] at stated length
  rw [size,readSize]
  generalize (getHeader m.request.headers lengthName).dropWhile isSpace = s at stated length
  have plain : signed s = (false,s) := by
    unfold signed
    split
    · exact absurd rfl stated
    · exact absurd rfl stated
    · rfl
  simp only [plain,length]
  split <;> simp <;> omega

lemma Message.setsType (m : Message) (same : k.request.headers = m.request.headers) : setContentType k = { k with
      request.contentTypeClass := m.expected.contentTypeClass
      request.contentLength := m.size } := by
  have stated : getHeader m.request.headers lengthName ≠ [] := fun none => m.stated (congrArg number none)
  rw [setContentType,same]
  simp only [if_pos stated,if_neg m.single,expected]
  split <;> rfl

def Message.reading (m : Message) (k : Connection) (got : List Char) : Connection :=
  { k with parser := .expectingNewline3, request := { m.expected with content := got } }

lemma Message.onGood (m : Message) (got : List Char) (same : setContentType k = m.reading k got) :
    onGood k a = if 0 < m.size then append (m.reading k got) a .handleRequest else .handleRequest (m.reading k got) := by
  have single : (m.reading k got).request.contentTypeClass ≠ .multipart := by
    unfold reading expected
    dsimp only
    split <;> decide
  rw [HttpConnection.onGood,same,if_neg single]
  rfl

lemma appendReading (m : Message) (got : List Char) (next : Connection → Outcome) : append (m.reading k got) a next =
      if got.length + a.length ≤ maxSize then
        if (got ++ a).length < m.size then .doRead (m.reading k (got ++ a)) else next (m.reading k (got ++ a))
      else .lengthError := rfl

lemma flattenNil (filled : ∀ c ∈ chunks, c ≠ []) (none : chunks.flatten = []) : chunks = [] := by
  cases chunks with
  | nil => rfl
  | cons c chunks => simp [filled c mem_cons_self] at none

lemma Message.bodyCalls (m : Message) {got : List Char} (short : got.length < m.size)
    (filled : ∀ c ∈ chunks, c ≠ []) (whole : got ++ chunks.flatten = m.body) :
    calls (m.reading k got) chunks = [m.expected] ↔ chunks.getLast? = some ['\n'] ∧ m.body.length ≤ maxSize := by
  have size := m.sizeEq
  induction chunks generalizing got with
  | nil => simp [calls]
  | cons c chunks ih => ?_
  have others : ∀ d ∈ chunks, d ≠ [] := fun d mem => filled d (.tail c mem)
  have length := congrArg List.length whole
  simp only [flatten_cons,length_append] at length
  have positive : 0 < (m.reading k got).request.contentLength := Nat.zero_lt_of_lt short
  rw [calls,onRead,if_pos positive,appendReading]
  by_cases fits : got.length + c.length ≤ maxSize
  swap
  · rw [if_neg fits]
    simp
    omega
  rw [if_pos fits]
  by_cases more : (got ++ c).length < m.size
  · -- another read follows, for the body is not shorter than stated
    rw [if_pos more]
    rcases chunks with _ | ⟨d,rest⟩
    · simp at more length; omega
    rw [getLast?_cons_cons]
    exact ih more others (by simpa using whole)
  have last : chunks = [] := by
    refine flattenNil others (length_eq_zero_iff.mp ?_)
    simp [maxSize] at more fits
    omega
  subst last
  have body : got ++ c = m.body := by simpa using whole
  have fitsBody : m.body.length ≤ maxSize := by simpa [← body] using fits
  rw [if_neg more,body]
  -- the parser still waits for the line feed that ends the header block
  match c,filled c (.head _) with
  | x::rest,_ =>
    have sized : ¬(m.body ++ rest).length < m.size := by rw [length_append]; omega
    by_cases feed : x = '\n'
    swap
    · have bad : onParse (m.reading k m.body) (x::rest) = .badRequest := by simp [onParse,reading,parse,consume,feed]
      simp [bad,feed]
    subst feed
    have good : onParse (m.reading k m.body) ('\n'::rest) = HttpConnection.onGood (m.reading k m.body) rest := rfl
    rw [good,m.onGood m.body (m.setsType rfl),if_pos (Nat.zero_lt_of_lt short),appendReading,if_neg sized]
    by_cases alone : rest = []
    · simp [alone,fitsBody,reading,expected]
    by_cases room : m.body.length + rest.length ≤ maxSize
    · simp [room,alone,reading,expected]
    · simp [room,alone]

lemma framedLater (m : Message) (c : List Char) (later : chunks ≠ []) (inside : chunks.flatten.length ≤ m.body.length) :
    Framed m (c::chunks) ↔ chunks.getLast? = some ['\n'] ∧ m.body.length ≤ maxSize := by
  obtain ⟨d,rest,rfl⟩ := exists_cons_of_ne_nil later
  rw [Framed,getLast?_cons_cons]
  constructor
  · rintro ⟨last,eq,longer | ⟨rfl,fits⟩⟩
    · have part := (sublist_flatten_of_mem (mem_of_getLast? eq)).length_le
      omega
    · exact ⟨eq,fits⟩
  · exact fun ⟨eq,fits⟩ => ⟨_,eq,.inr ⟨rfl,fits⟩⟩

lemma Message.headerCalls (m : Message) {todo : List Char} (none : k.request.contentLength = 0)
    (empty : k.request.content = []) (parses : parse k.parser k.request todo = (.good,.expectingNewline3,m.request,[]))
    (sizes : ∀ c ∈ chunks, c ≠ [] ∧ c.length ≤ maxSize) (whole : chunks.flatten = todo ++ m.body) :
    calls k chunks = [m.expected] ↔ Framed m chunks := by
  induction chunks generalizing k todo with
  | nil =>
    rw [(append_eq_nil_iff.mp whole.symm).1] at parses
    cases parses
  | cons c chunks ih => ?_
  have others : ∀ d ∈ chunks, d ≠ [] ∧ d.length ≤ maxSize := fun d mem => sizes d (.tail c mem)
  rw [calls,onRead,if_neg (by omega)]
  by_cases inside : c.length < todo.length
  · obtain ⟨rest,rfl⟩ := prefix_of_prefix_length_le ⟨chunks.flatten,whole⟩ ⟨m.body,rfl⟩ (Nat.le_of_lt inside)
    have more : rest ≠ [] := by rintro rfl; simp at inside
    have left : chunks.flatten = rest ++ m.body := by simpa using whole
    obtain ⟨u,p,first,last,length,content⟩ := parseFirst parses more
    rw [onParse,first]
    rcases chunks with _ | ⟨d,chunks⟩
    · exact absurd (append_eq_nil_iff.mp left.symm).1 more
    rw [Framed,getLast?_cons_cons]
    exact ih (length.trans none) (content.trans empty) last others left
  obtain ⟨got,rfl⟩ := prefix_of_prefix_length_le ⟨m.body,rfl⟩ ⟨chunks.flatten,whole⟩ (Nat.not_lt.mp inside)
  have body : got ++ chunks.flatten = m.body := by simpa using whole
  have length := congrArg List.length body
  rw [length_append] at length
  have fits := (sizes _ (.head _)).2
  rw [length_append] at fits
  have size := m.sizeEq
  obtain ⟨good,content⟩ := @parseGood _ _ _ _ todo got parses
  have sets : setContentType { k with parser := .expectingNewline3, request := m.request } = m.reading k [] := by
    rw [m.setsType rfl,reading,expected,← empty,← content]
  rw [onParse,good]
  dsimp only
  rw [m.onGood [] sets]
  by_cases more : got.length < m.size
  · have later : chunks ≠ [] := by rintro rfl; simp at length; omega
    have step := @bodyCalls k chunks m got more (fun d mem => (others d mem).1) body
    rw [framedLater m _ later (by omega),← step,if_pos (Nat.zero_lt_of_lt more),appendReading,
      if_pos (by simp; omega),nil_append,if_pos more]
    exact Iff.rfl
  have last : chunks = [] := by
    refine flattenNil (fun d mem => (others d mem).1) (length_eq_zero_iff.mp ?_)
    simp only [maxSize] at fits
    omega
  subst last
  have start : 0 < todo.length := length_pos_iff.mpr (by rintro rfl; cases parses)
  have same : got = m.body := by simpa using body
  have framed : Framed m [todo ++ got] := ⟨todo ++ got,rfl,.inl (by rw [length_append,same]; omega)⟩
  refine iff_of_true ?_ framed
  by_cases zero : 0 < m.size
  · rw [if_pos zero,appendReading,if_pos (by simp; omega),nil_append,if_neg more,same]
    rfl
  have nothing : m.body = [] := length_eq_zero_iff.mp (by omega)
  rw [if_neg zero,← nothing]
  rfl

theorem requestsFramed (m : Message) : (m.bytes.length ≤ maxSize → calls {} [m.bytes] = [m.expected]) ∧
      ∀ d : Delivery m.bytes, calls {} d.chunks = [m.expected] ↔ Framed m d.chunks := by
  have start : m.header ≠ [] := by
    intro eq
    have valid := m.valid
    rw [eq] at valid
    cases valid
  constructor
  · intro fits
    have sizes : ∀ c ∈ [m.bytes], c ≠ [] ∧ c.length ≤ maxSize := by simpa [bytes,start] using fits
    apply (m.headerCalls rfl rfl m.valid sizes (by simp [bytes])).mpr
    exact ⟨m.bytes,rfl,.inl (by simp [bytes,length_pos_iff,start])⟩
  rintro ⟨chunks,sizes,whole⟩
  refine m.headerCalls rfl rfl m.valid (fun c mem => ⟨(sizes c mem).1,Nat.le_trans (sizes c mem).2 ?_⟩) whole
  decide

def post (digit : Char) : List Char :=
  ['P',' ','/',' ','H','T','T','P','/','1','.','1','\r','\n'] ++ lengthName ++ [':',' ',digit,'\r','\n','\r','\n']

set_option maxRecDepth 20000

def posted (digit : Char) (body : List Char) (length : decimal (number [digit]) = body.length := by decide)
    (some : number [digit] ≠ [] := by decide)
    (valid : parse .methodStart {} (post digit) = (.good,.expectingNewline3,
      { method := ['P'], uri := ['/'], httpVersionMajor := 1, httpVersionMinor := 1, headers := [⟨lengthName,[digit]⟩] },
      []) := by decide) : Message :=
  ⟨post digit,_,valid,body,by simpa [getHeader] using some,by simpa [getHeader] using length,
    by simp [getHeader,multipartMark,lengthName,typeName]⟩

theorem requestsFramedPost : calls {} [(posted '1' ['a']).bytes.take 1,(posted '1' ['a']).bytes.drop 1] =
    [(posted '1' ['a']).expected] :=
  ((requestsFramed (posted '1' ['a'])).2 ⟨[_,_],by decide,rfl⟩).mpr ⟨_,rfl,.inl (by decide)⟩

theorem requestsSplit : (∃ d : Delivery (posted '1' ['a']).bytes, d.chunks = [post '1',['a']] ∧ calls {} d.chunks = []) ∧
      ∃ d : Delivery (posted '2' ['\n','a']).bytes, d.chunks = [post '2',['\n','a']] ∧
        (calls {} d.chunks).map Request.content = [['\n','a','a']] :=
  ⟨⟨⟨[post '1',['a']],by decide,rfl⟩,rfl,rfl⟩,
    ⟨⟨[post '2',['\n','a']],by decide,rfl⟩,rfl,rfl⟩⟩

end OsvKernel.HttpConnection
