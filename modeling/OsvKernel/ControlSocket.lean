import OsvKernel.Lines
import OsvKernel.Words

/-! ControlSocket::ReadManagementData of the Click plugin, over what the reads of the socket return. junk is what the
uninitialised metaData and reads past the end of a line find in memory. -/
namespace OsvKernel.ControlSocket
open List Lines Words

def nul : Char := '\x00'
abbrev Read := Option (List Char)

structure Socket where
  accessSuccess : Bool
  returnData : List Char
  dataBuffer : List Char
  deriving DecidableEq

def bzero : List Char := List.replicate 512 nul

def readInto (buffer : List Char) : Read → List Char
  | none => buffer
  | some bytes => bytes ++ buffer.drop bytes.length

def cString (buffer : List Char) : List Char := buffer.takeWhile (· ≠ nul)

def atoi (junk : Int) (s : List Char) : Int :=
  let number := signed (s.dropWhile isSpace)
  let magnitude : Int := decimal (number.2.takeWhile Char.isDigit)
  let value := if number.1 then -magnitude else magnitude
  if -2 ^ 31 ≤ value ∧ value < 2 ^ 31 then value else junk

def dataMark : List Char := ['D','A','T','A']
def isData (line : List Char) : Bool := line.take 4 = dataMark

def addLines (lines : List (List Char)) (size : Int) : Int :=
  lines.foldl (fun size line => int32 (size + (line.length + 1))) size

def getMessageSize (junk : Int) (buffer : List Char) : Int × Int :=
  match (getlines (cString buffer)).dropWhile fun line => !isData line with
  | [] => (junk,0)
  | line::rest => (if 5 ≤ line.length then atoi junk (line.drop 5) else junk,addLines rest 0)

def updateMessageSize (buffer : List Char) (size : Int) : Int := addLines (getlines (cString buffer)) size

def readLoop (closed : Bool) : Nat → Int → Int → Socket → List Read → Option (Socket × List Read)
  | 0,_,_,_,_ => none
  | fuel + 1,wanted,size,s,reads =>
    if wanted ≤ size then some ({ s with accessSuccess := true },reads)
    else match reads with
      | [] =>
        if closed then
          let t := { s with returnData := s.returnData ++ cString s.dataBuffer }
          readLoop closed fuel wanted (updateMessageSize t.dataBuffer size) t []
        else none
      | r::rest =>
        let buffer := readInto s.dataBuffer r
        let t := { s with dataBuffer := buffer, returnData := s.returnData ++ cString buffer }
        readLoop closed fuel wanted (updateMessageSize buffer size) t rest

def firstRead (closed : Bool) (fuel : Nat) (junk : Int) (s : Socket) (bytes : List Char) (rest : List Read) :
    Option (Socket × List Read) :=
  let buffer := readInto bzero (some bytes)
  let t := { s with dataBuffer := buffer }
  if buffer.take 3 = ['2','0','0'] then
    let sizes := getMessageSize junk buffer
    readLoop closed fuel sizes.1 sizes.2 { t with returnData := cString buffer } rest
  else some ({ t with accessSuccess := false },rest)

def readManagementData (closed : Bool) (fuel : Nat) (junk : Int) (written : Bool) (s : Socket) (reads : List Read) :
    Option (Socket × List Read) :=
  if !written then some ({ s with accessSuccess := false },reads)
  else match reads with
    | [] => if closed then firstRead closed fuel junk s [] [] else none
    | none::rest => some ({ s with accessSuccess := false, dataBuffer := bzero },rest)
    | some bytes::rest => firstRead closed fuel junk s bytes rest

structure Reply where
  status : List Char
  accepted : ['2','0','0'] <+: status
  oneLine : '\n' ∉ status
  statusClean : nul ∉ status
  carriage : Bool
  text : List Char
  textClean : nul ∉ text

def Reply.n (r : Reply) : Nat := r.text.length
def Reply.digits (r : Reply) : List Char := Nat.toDigits 10 r.n
def Reply.number (r : Reply) : List Char := r.digits ++ if r.carriage then ['\r'] else []
def Reply.dataLine (r : Reply) : List Char := dataMark ++ ' '::r.number
def Reply.bytes (r : Reply) : List Char := r.status ++ '\n'::(r.dataLine ++ '\n'::r.text)
def counted (piece : List Char) : Nat := piece.length + unended piece

variable {size : Int} {lines : List (List Char)} {shown bytes buffer : List Char}

open Reply

lemma addLinesExtent (k : Nat) : addLines lines (int32 k) = int32 (k + extent lines : Nat) := by
  induction lines generalizing k with
  | nil => rw [extent,map_nil,sum_nil,Nat.add_zero,addLines,foldl_nil]
  | cons line lines ih => ?_
  have sum : (k : Int) + (line.length + 1) = (k + (line.length + 1) : Nat) := by omega
  have total : k + extent (line::lines) = k + (line.length + 1) + extent lines := by
    rw [extent,extent,map_cons,sum_cons]
    omega
  rw [total,← ih,addLines,addLines,foldl_cons,int32Add,sum]

lemma updateCounted (k : Nat) (same : cString buffer = shown) :
    updateMessageSize buffer (int32 k) = int32 (k + counted shown : Nat) := by
  rw [updateMessageSize,same,addLinesExtent,extentGetlines,counted]

def Holds (buffer shown : List Char) : Prop := nul ∉ shown ∧ ∃ k, buffer = shown ++ List.replicate k nul

lemma Holds.cString (holds : Holds buffer shown) : cString buffer = shown := by
  obtain ⟨clean,k,rfl⟩ := holds
  have all : ∀ c ∈ shown, decide (c ≠ nul) = true := fun c mem => decide_eq_true fun same => clean (same ▸ mem)
  rw [ControlSocket.cString,takeWhile_append_of_pos all]
  cases k with
  | zero => exact append_nil _
  | succ k => simp [replicate_succ]

lemma holdsNothing : Holds bzero [] := ⟨by simp,512,rfl⟩

lemma Holds.read (holds : Holds buffer shown) (clean : nul ∉ bytes) :
    Holds (readInto buffer (some bytes)) (bytes ++ shown.drop bytes.length) := by
  obtain ⟨before,k,rfl⟩ := holds
  have kept : nul ∉ shown.drop bytes.length := fun mem => before (mem_of_mem_drop mem)
  refine ⟨by simp [clean,kept],k - (bytes.length - shown.length),?_⟩
  rw [readInto,drop_append,drop_replicate,append_assoc]

def Steady : Nat → List (List Char) → Prop
  | _,[] => True
  | l,c::chunks => l ≤ c.length ∧ Steady c.length chunks

def countedAll (chunks : List (List Char)) : Nat := (chunks.map counted).sum

variable {chunks : List (List Char)} {wanted : Int} {s t : Socket} {left : List Read}

variable {fuel : Nat}

lemma loopLength (holds : ∃ shown, Holds s.dataBuffer shown) (clean : ∀ c ∈ chunks, nul ∉ c)
    (done : readLoop false fuel wanted size s (chunks.map some) = some (t,[])) :
    s.returnData.length + chunks.flatten.length ≤ t.returnData.length := by
  induction chunks generalizing fuel size s with
  | nil =>
    rcases fuel with _ | fuel
    · cases done
    rw [map_nil,readLoop] at done
    split at done
    · cases done; simp
    · cases done
  | cons c chunks ih => ?_
  rcases fuel with _ | fuel
  · cases done
  rw [map_cons,readLoop] at done
  split at done
  · cases done
  obtain ⟨shown,holds⟩ := holds
  have next := holds.read (clean c (.head _))
  have rest := ih ⟨_,next⟩ (fun d mem => clean d (.tail c mem)) done
  simp only [next.cString,length_append] at rest
  simp only [flatten_cons,length_append]
  omega

lemma loopReads (holds : Holds s.dataBuffer shown) (clean : ∀ c ∈ chunks, nul ∉ c) (k : Nat) :
    (∃ fuel t, readLoop false fuel wanted (int32 k) s (chunks.map some) = some (t,[]) ∧ t.accessSuccess = true ∧
        t.returnData = s.returnData ++ chunks.flatten) ↔
      Steady shown.length chunks ∧ (∀ p, p <+: chunks → p ≠ chunks → int32 (k + countedAll p : Nat) < wanted) ∧
        wanted ≤ int32 (k + countedAll chunks : Nat) := by
  induction chunks generalizing s shown k with
  | nil =>
    constructor
    · rintro ⟨_ | fuel,t,done,-⟩
      · cases done
      rw [map_nil,readLoop] at done
      split at done
      · next enough => exact ⟨trivial,fun p before other => absurd (prefix_nil.mp before) other,enough⟩
      · cases done
    rintro ⟨-,-,enough⟩
    have stop : wanted ≤ int32 k := enough
    exact ⟨1,{ s with accessSuccess := true },by simp [readLoop,stop],rfl,by simp⟩
  | cons c chunks ih => ?_
  have next := holds.read (clean c (.head _))
  have others : ∀ d ∈ chunks, nul ∉ d := fun d mem => clean d (.tail c mem)
  have prefixes : (∀ p, p <+: c::chunks → p ≠ c::chunks → int32 (k + countedAll p : Nat) < wanted) ↔
    int32 k < wanted ∧ ∀ p, p <+: chunks → p ≠ chunks → int32 (k + counted c + countedAll p : Nat) < wanted := by
    constructor
    · intro all
      refine ⟨all [] nil_prefix (by simp),fun p before other => ?_⟩
      have here := all (c::p) (prefix_cons_inj c |>.mpr before) (by simpa using other)
      simpa [countedAll,Nat.add_assoc] using here
    rintro ⟨first,rest⟩ p before other
    rcases prefix_cons_iff.mp before with rfl | ⟨q,rfl,shorter⟩
    · exact first
    have here := rest q shorter (by simpa using other)
    simpa [countedAll,Nat.add_assoc] using here
  by_cases stop : wanted ≤ int32 k
  · constructor
    · rintro ⟨fuel,t,done,-⟩
      cases fuel with
      | zero => cases done
      | succ fuel => simp [readLoop,stop] at done
    · rintro ⟨-,all,-⟩
      exact absurd stop (Int.not_le.mpr (prefixes.mp all).1)
  generalize after : ({ s with
      dataBuffer := readInto s.dataBuffer (some c)
      returnData := s.returnData ++ cString (readInto s.dataBuffer (some c)) } : Socket) = u
  have buffer : u.dataBuffer = readInto s.dataBuffer (some c) := by rw [← after]
  have data : u.returnData = s.returnData ++ (c ++ shown.drop c.length) := by rw [← after,← next.cString]
  have step : ∀ fuel, readLoop false (fuel + 1) wanted (int32 k) s ((c::chunks).map some) =
    readLoop false fuel wanted (int32 (k + counted (c ++ shown.drop c.length) : Nat)) u (chunks.map some) := by
    intro fuel
    rw [map_cons,readLoop,if_neg stop,← updateCounted k next.cString,← after]
  by_cases fits : shown.length ≤ c.length
  · rw [drop_eq_nil_of_le fits,append_nil] at next data step
    have rest := @ih c u (buffer ▸ next) others (k + counted c)
    have whole : k + counted c + countedAll chunks = k + countedAll (c::chunks) := by simp [countedAll,Nat.add_assoc]
    rw [prefixes,← whole,Steady]
    constructor
    · rintro ⟨_ | fuel,t,done,success,result⟩
      · cases done
      have result : t.returnData = u.returnData ++ chunks.flatten := by simp [result,data]
      obtain ⟨steady,early,enough⟩ := rest.mp ⟨fuel,t,step fuel ▸ done,success,result⟩
      exact ⟨⟨fits,steady⟩,⟨Int.not_le.mp stop,early⟩,enough⟩
    rintro ⟨⟨-,steady⟩,⟨-,early⟩,enough⟩
    obtain ⟨fuel,t,done,success,result⟩ := rest.mpr ⟨steady,early,enough⟩
    exact ⟨fuel + 1,t,(step fuel).trans done,success,by simp [result,data]⟩
  constructor
  · rintro ⟨_ | fuel,t,done,-,result⟩
    · cases done
    -- the bytes of an earlier read are appended again
    have long := loopLength ⟨_,buffer ▸ next⟩ others (step fuel ▸ done)
    have same := congrArg length result
    simp only [data,flatten_cons,length_append,length_drop] at long same
    omega
  rintro ⟨⟨steady,-⟩,-⟩
  exact absurd steady fits

structure Delivery (bytes : List Char) where
  chunks : List (List Char)
  sizes : ∀ c ∈ chunks, 1 ≤ c.length ∧ c.length ≤ 511
  whole : chunks.flatten = bytes

def Reply.seen (r : Reply) (first : List Char) : List Char := r.digits.take (first.length - (r.status.length + 6))
def Reply.begun (r : Reply) (first : List Char) : Nat := counted (first.drop (r.status.length + r.dataLine.length + 2))

lemma Reply.digit (r : Reply) : ∀ c ∈ r.digits, c.isDigit = true := fun _ mem =>
  Nat.isDigit_of_mem_toDigits (by decide) (by decide) mem

lemma atoiDigits {junk : Int} {ds rest : List Char} (some : ds ≠ []) (digits : ∀ c ∈ ds, c.isDigit = true)
    (ends : ∀ c ∈ rest.head?, c.isDigit = false) :
    atoi junk (ds ++ rest) = if decimal ds < 2 ^ 31 then (decimal ds : Int) else junk := by
  obtain ⟨d,ds,rfl⟩ := exists_cons_of_ne_nil some
  have first := digits d (.head _)
  have plain : isSpace d = false := by
    rcases Char.isDigit_iff_toNat.mp first with ⟨low,high⟩
    simp only [isSpace,contains_cons,contains_nil,Bool.or_false,Bool.or_eq_false_iff,beq_eq_false_iff_ne]
    refine ⟨?_,?_,?_,?_,?_,?_⟩ <;> rintro rfl <;> revert low <;> decide
  have unsigned : signed (d::ds ++ rest) = (false,d::ds ++ rest) := by
    have minus : d ≠ '-' := by rintro rfl; revert first; decide
    have plus : d ≠ '+' := by rintro rfl; revert first; decide
    unfold signed
    split <;> simp_all
  have taken : (d::ds ++ rest).takeWhile Char.isDigit = d::ds := by
    rw [takeWhile_append_of_pos digits]
    cases rest with
    | nil => simp
    | cons c rest => simp [ends c rfl]
  have skipped : (d::ds ++ rest).dropWhile isSpace = d::ds ++ rest := by simp [plain]
  simp only [atoi,skipped,unsigned,taken,Bool.false_eq_true,if_false]
  split <;> split <;> omega

variable {r : Reply} {first rest : List Char} {junk : Int}

lemma Reply.statusLine (r : Reply) {line : List Char} (before : line <+: r.status) : isData line = false := by
  obtain ⟨b,eq⟩ := r.accepted
  obtain ⟨a,rest⟩ := before
  rw [← eq] at rest
  rcases line with _ | ⟨c,line⟩
  · rfl
  cases (cons.inj rest).1
  simp [isData,dataMark]

lemma Reply.dataPlain (r : Reply) : '\n' ∉ r.dataLine := by
  have digits : '\n' ∉ r.digits := fun mem => by have := r.digit _ mem; revert this; decide
  simp only [dataLine,number,dataMark]
  split <;> simp [digits]

/-- Where the first read ends: in the status line, in the DATA line, or after it. -/
lemma Reply.cut (r : Reply) (whole : first ++ rest = r.bytes) :
    first <+: r.status ∨ (∃ line, line <+: r.dataLine ∧ first = r.status ++ '\n'::line) ∨
      ∃ begun, first = r.status ++ '\n'::(r.dataLine ++ '\n'::begun) := by
  rcases append_eq_append_iff.mp whole with ⟨a,status,-⟩ | ⟨b,rfl,tail⟩
  · exact .inl ⟨a,status.symm⟩
  rcases b with _ | ⟨c,b⟩
  · exact .inl (by simp)
  obtain ⟨rfl,after⟩ := cons.inj (show _ = c::(b ++ rest) from tail)
  rcases append_eq_append_iff.mp after.symm with ⟨y,data,-⟩ | ⟨y,rfl,last⟩
  · exact .inr (.inl ⟨b,⟨y,data.symm⟩,rfl⟩)
  rcases y with _ | ⟨d,y⟩
  · exact .inr (.inl ⟨r.dataLine,prefix_rfl,by simp⟩)
  cases (cons.inj last).1
  exact .inr (.inr ⟨y,rfl⟩)

lemma Reply.numberSeen (r : Reply) {j : Nat} (some : j ≠ 0) :
    atoi junk (r.number.take j) = if decimal (r.digits.take j) < 2 ^ 31 then (decimal (r.digits.take j) : Int) else junk := by
  have shown : r.digits.take j ≠ [] := by simp [some,digits,Nat.toDigits_ne_nil]
  rw [number,take_append]
  refine atoiDigits shown (fun c mem => r.digit c (mem_of_mem_take mem)) ?_
  split
  · intro c mem
    have : c = '\r' := by simpa using mem_of_mem_take (mem_of_mem_head? mem)
    rw [this]
    decide
  · simp

/-- getline passes over the status line. -/
lemma Reply.sizesAfter (r : Reply) {tail : List Char} (same : cString buffer = r.status ++ '\n'::tail) :
    getMessageSize junk buffer = match (getlines tail).dropWhile fun line => !isData line with
      | [] => (junk,0)
      | line::rest => (if 5 ≤ line.length then atoi junk (line.drop 5) else junk,addLines rest 0) := by
  rw [getMessageSize,same,getlinesEnded r.oneLine,dropWhile_cons,r.statusLine prefix_rfl]
  rfl

/-- No number is seen, so the size is what metaData held, or nothing. -/
lemma Reply.sizesEarly (r : Reply) (whole : first ++ rest = r.bytes) (some : first ≠ []) (same : cString buffer = first)
    (early : first.length ≤ r.status.length + 6) : getMessageSize 0 buffer = (0,0) := by
  rcases r.cut whole with before | ⟨line,before,rfl⟩ | ⟨begun,rfl⟩
  · have plain : '\n' ∉ first := fun mem => r.oneLine (before.subset mem)
    rw [getMessageSize,same,getlinesOpen plain some,dropWhile_cons,r.statusLine before]
    rfl
  · rw [r.sizesAfter same]
    obtain ⟨a,data⟩ := before
    simp only [length_append,length_cons] at early
    rw [dataLine,dataMark] at data
    clear same some whole
    match line,early,data with
    | [],_,_ => rfl
    | [_],_,data => cases data; decide
    | [_,_],_,data => cases data; decide
    | [_,_,_],_,data => cases data; decide
    | [_,_,_,_],_,data => cases data; decide
    | [_,_,_,_,_],_,data => cases data; decide
    | _::_::_::_::_::_::_,early,_ => simp only [length_cons] at early; omega
  have some : 0 < r.digits.length := Nat.length_toDigits_pos
  simp only [length_append,length_cons,dataLine,number,dataMark] at early
  omega

lemma Reply.sizesSeen (r : Reply) (whole : first ++ rest = r.bytes) (same : cString buffer = first)
    (late : r.status.length + 6 < first.length) :
    getMessageSize junk buffer = (if decimal (r.seen first) < 2 ^ 31 then (decimal (r.seen first) : Int) else junk,
      int32 (r.begun first)) := by
  have mark : ∀ j, 5 < j → isData (r.dataLine.take j) = true ∧ (r.dataLine.take j).drop 5 = r.number.take (j - 5) ∧
    5 ≤ (r.dataLine.take j).length := by
    intro j long
    obtain ⟨j,rfl⟩ := Nat.exists_eq_add_of_lt long
    simp [dataLine,dataMark,isData,Nat.add_assoc,Nat.add_comm 5,take_succ_cons]
  have zero : int32 0 = 0 := rfl
  rcases r.cut whole with before | ⟨line,before,rfl⟩ | ⟨begun,rfl⟩
  · have := before.length_le
    omega
  · have plain : '\n' ∉ line := fun mem => r.dataPlain (before.subset mem)
    have long : 5 < line.length := by simp at late; omega
    have short := before.length_le
    obtain ⟨data,digits,room⟩ := mark line.length long
    rw [prefix_iff_eq_take.mp before |>.symm] at data digits room
    have none : r.begun (r.status ++ '\n'::line) = 0 := by
      rw [begun,drop_eq_nil_of_le (by simp; omega)]
      rfl
    have seen : r.seen (r.status ++ '\n'::line) = r.digits.take (line.length - 5) := by
      rw [seen]
      congr 1
      simp only [length_append,length_cons]
      omega
    rw [r.sizesAfter same,getlinesOpen plain (by rintro rfl; simp at long),none,seen]
    simp [data,room,digits,r.numberSeen (show line.length - 5 ≠ 0 by omega),addLines,zero]
  have long : 5 < r.dataLine.length := by
    have : 0 < r.digits.length := Nat.length_toDigits_pos
    simp [dataLine,number,dataMark]
    omega
  obtain ⟨data,digits,room⟩ := mark r.dataLine.length long
  rw [take_length] at data digits room
  have all : r.seen (r.status ++ '\n'::(r.dataLine ++ '\n'::begun)) = r.digits.take (r.dataLine.length - 5) := by
    have enough : r.digits.length ≤ r.dataLine.length - 5 := by simp [dataLine,number,dataMark]
    rw [seen,take_of_length_le enough,take_of_length_le]
    simp only [length_append,length_cons]
    omega
  have after : r.begun (r.status ++ '\n'::(r.dataLine ++ '\n'::begun)) = counted begun := by
    have split : r.status ++ '\n'::(r.dataLine ++ '\n'::begun) = (r.status ++ '\n'::(r.dataLine ++ ['\n'])) ++ begun := by simp
    rw [Reply.begun,split,drop_left']
    simp only [length_append,length_cons,length_nil]
    omega
  have counts : addLines (getlines begun) 0 = int32 (counted begun) := by
    have := @addLinesExtent (getlines begun) 0
    rwa [extentGetlines,Nat.zero_add,Int.ofNat_zero,zero] at this
  rw [r.sizesAfter same,getlinesEnded r.dataPlain,all,after,dropWhile_cons,data]
  simp only [Bool.not_true,Bool.false_eq_true,if_false,if_pos room,digits,counts]
  rw [r.numberSeen (by omega)]

def Whole (r : Reply) : List (List Char) → Prop
  | [] => False
  | first::rest => r.seen first ≠ [] ∧ decimal (r.seen first) < 2 ^ 31 ∧ Steady first.length rest ∧
    (∀ p, p <+: rest → p ≠ rest → int32 (r.begun first + countedAll p : Nat) < decimal (r.seen first)) ∧
    (decimal (r.seen first) : Int) ≤ int32 (r.begun first + countedAll rest : Nat)

def Answered (r : Reply) (s : Socket) (chunks : List (List Char)) : Prop :=
  ∀ junk, ∃ fuel t, readManagementData false fuel junk true s (chunks.map some) = some (t,[]) ∧
    t.accessSuccess = true ∧ t.returnData = r.bytes

def Refused (s : Socket) (chunks : List (List Char)) : Prop :=
  ∀ junk, ∃ fuel t left, readManagementData true fuel junk true s (chunks.map some) = some (t,left) ∧
    t.accessSuccess = false

lemma Reply.clean (r : Reply) : nul ∉ r.bytes := by
  have digits : nul ∉ r.digits := fun mem => by have := r.digit _ mem; revert this; decide
  have status := r.statusClean
  have text := r.textClean
  simp only [nul] at digits status text
  unfold bytes dataLine number
  split <;> simp [nul,dataMark,digits,status,text]

lemma loopSuccess {closed : Bool} {reads : List Read}
    (done : readLoop closed fuel wanted size s reads = some (t,left)) : t.accessSuccess = true := by
  induction fuel generalizing size s reads with
  | zero => cases done
  | succ fuel ih => ?_
  cases reads
  case cons r rest =>
    rw [readLoop] at done
    split at done
    · cases done; rfl
    · exact ih done
  rw [readLoop] at done
  split at done
  · cases done; rfl
  split at done
  · exact ih done
  · cases done

lemma Reply.starts (r : Reply) (whole : first ++ rest = r.bytes) :
    (readInto bzero (some first)).take 3 = ['2','0','0'] ↔ 3 ≤ first.length := by
  obtain ⟨tail,eq⟩ := r.accepted
  rw [bytes,← eq] at whole
  match first,whole with
  | [],_ => decide
  | [_],whole => cases (cons.inj whole).1; decide
  | [_,_],whole => cases (cons.inj whole).1; cases (cons.inj (cons.inj whole).2).1; decide
  | _::_::_::_,whole =>
    cases (cons.inj whole).1
    cases (cons.inj (cons.inj whole).2).1
    cases (cons.inj (cons.inj (cons.inj whole).2).2).1
    simp [readInto]

lemma Reply.entersLoop (r : Reply) (whole : first ++ rest = r.bytes) (long : 3 ≤ first.length) (closed : Bool)
    (reads : List Read) (s : Socket) :
    ∃ u : Socket, Holds u.dataBuffer first ∧ u.returnData = first ∧ ∀ fuel junk,
      readManagementData closed fuel junk true s (some first::reads) =
        readLoop closed fuel (getMessageSize junk u.dataBuffer).1 (getMessageSize junk u.dataBuffer).2 u reads := by
  have clean : nul ∉ first := fun mem => r.clean (whole ▸ mem_append_left _ mem)
  have holds : Holds (readInto bzero (some first)) first := by simpa using holdsNothing.read clean
  refine ⟨⟨s.accessSuccess,first,readInto bzero (some first)⟩,holds,rfl,fun fuel junk => ?_⟩
  simp only [readManagementData,firstRead,Bool.not_true,Bool.false_eq_true,if_false,if_pos ((r.starts whole).mpr long),
    holds.cString]

lemma Reply.answered (r : Reply) (whole : first ++ chunks.flatten = r.bytes) :
    Answered r s (first::chunks) ↔ Whole r (first::chunks) := by
  have clean : ∀ c ∈ chunks, nul ∉ c := fun c mem inside =>
    r.clean (whole ▸ mem_append_right _ (mem_flatten.mpr ⟨c,mem,inside⟩))
  by_cases late : r.status.length + 6 < first.length
  · obtain ⟨u,holds,data,enters⟩ := r.entersLoop whole (by omega) false (chunks.map some) s
    have sizes := fun junk => @sizesSeen _ _ _ junk r whole holds.cString late
    have shown : r.seen first ≠ [] := by
      simp [seen,digits,Nat.toDigits_ne_nil]
      omega
    simp only [Answered,Whole,map_cons,enters,sizes]
    by_cases small : decimal (r.seen first) < 2 ^ 31
    · have reads := @loopReads _ _ (decimal (r.seen first)) u holds clean (r.begun first)
      simp only [if_pos small,data,whole] at reads ⊢
      simp only [shown,small,ne_eq,not_false_iff,true_and,forall_const]
      exact reads
    simp only [if_neg small]
    refine ⟨fun all => ?_,fun h => absurd h.2.1 small⟩
    -- no number is right for both: one that stops at once, and one that waits for more
    cases chunks
    case cons c chunks =>
      obtain ⟨fuel,t,done,-⟩ := all (int32 (r.begun first))
      cases fuel with
      | zero => cases done
      | succ fuel => simp [readLoop] at done
    obtain ⟨_ | fuel,t,done,-⟩ := all (int32 (r.begun first) + 1)
    · cases done
    rw [map_nil,readLoop,if_neg (by omega)] at done
    cases done
  have unseen : r.seen first = [] := by rw [seen,Nat.sub_eq_zero_of_le (by omega),take_zero]
  refine ⟨fun all => ?_,fun h => absurd unseen h.1⟩
  obtain ⟨fuel,t,done,success,result⟩ := all 0
  by_cases long : 3 ≤ first.length
  · obtain ⟨u,holds,data,enters⟩ := r.entersLoop whole long false (chunks.map some) s
    have some : first ≠ [] := by rintro rfl; simp at long
    rw [map_cons,enters,r.sizesEarly whole some holds.cString (by omega)] at done
    rcases fuel with _ | fuel
    · cases done
    rw [readLoop.eq_def] at done
    simp only [Int.le_refl,if_true,Option.some.injEq,Prod.mk.injEq] at done
    cases done.1
    have size := congrArg length (data.symm.trans result)
    have : 0 < r.digits.length := Nat.length_toDigits_pos
    simp only [bytes,dataLine,number,dataMark,length_append,length_cons] at size
    omega
  simp only [map_cons,readManagementData,firstRead,Bool.not_true,Bool.false_eq_true,if_false,
    if_neg (mt (r.starts whole).mp long)] at done
  simp only [Option.some.injEq,Prod.mk.injEq] at done
  cases done.1
  cases success

lemma Reply.refused (r : Reply) (whole : first ++ rest = r.bytes) : Refused s (first::chunks) ↔ first.length < 3 := by
  by_cases long : 3 ≤ first.length
  · obtain ⟨u,-,-,enters⟩ := r.entersLoop whole long true (chunks.map some) s
    refine ⟨fun refused => ?_,fun short => absurd long (Nat.not_le.mpr short)⟩
    obtain ⟨fuel,t,left,done,failed⟩ := refused 0
    rw [map_cons,enters] at done
    rw [loopSuccess done] at failed
    cases failed
  refine ⟨fun _ => Nat.not_le.mp long,fun _ junk => ?_⟩
  simp only [map_cons,readManagementData,firstRead,Bool.not_true,Bool.false_eq_true,if_false,
    if_neg (mt (r.starts whole).mp long)]
  exact ⟨0,_,_,rfl,rfl⟩

theorem repliesRead (r : Reply) (s : Socket) : (∀ d : Delivery r.bytes, Answered r s d.chunks ↔ Whole r d.chunks) ∧
      ∀ early rest, early ++ rest = r.bytes → rest ≠ [] → ∀ d : Delivery early,
        (Refused s d.chunks ↔ (d.chunks.headD []).length < 3) := by
  constructor
  · rintro ⟨chunks,-,whole⟩
    cases chunks with
    | nil => simp [bytes] at whole
    | cons first chunks => exact r.answered whole
  rintro early rest closes - ⟨chunks,-,rfl⟩
  cases chunks with
  | nil => exact ⟨fun _ => Nat.zero_lt_succ 2,fun _ junk => ⟨0,_,_,rfl,rfl⟩⟩
  | cons first chunks => exact r.refused (by simpa using closes)

def shortReply : Reply := ⟨['2','0','0'],by decide,by decide,by decide,true,['a','b','c'],by decide⟩
def fresh : Socket := ⟨false,[],[]⟩

theorem repliesReadShort : Answered shortReply fresh [shortReply.bytes] ∧ Refused fresh [['2','0']] := by
  have both := repliesRead shortReply fresh
  constructor
  · apply (both.1 ⟨[shortReply.bytes],by decide,by simp⟩).mpr
    refine ⟨by decide,by decide,trivial,fun p before other => ?_,by decide⟩
    exact absurd (prefix_nil.mp before) other
  · exact (both.2 ['2','0'] (shortReply.bytes.drop 2) rfl (by decide) ⟨[['2','0']],by decide,rfl⟩).mpr (by decide)

theorem repliesUnread :
    (∃ d : Delivery shortReply.bytes, d.chunks = [shortReply.bytes.dropLast,['c']] ∧ ¬Answered shortReply fresh d.chunks) ∧
      ∃ d : Delivery (shortReply.bytes.take 4), d.chunks = [shortReply.bytes.take 4] ∧ ¬Refused fresh d.chunks := by
  have whole : shortReply.bytes.dropLast ++ [['c']].flatten = shortReply.bytes := rfl
  have early : shortReply.bytes.take 4 ++ shortReply.bytes.drop 4 = shortReply.bytes := take_append_drop 4 _
  refine ⟨⟨⟨[shortReply.bytes.dropLast,['c']],by decide,rfl⟩,rfl,fun answered => ?_⟩,
    ⟨⟨[shortReply.bytes.take 4],by decide,by simp⟩,rfl,fun refused => ?_⟩⟩
  · have steady := ((shortReply.answered whole).mp answered).2.2.1.1
    exact absurd steady (by decide)
  · exact absurd ((shortReply.refused early).mp refused) (by decide)

end OsvKernel.ControlSocket
