import OsvKernel.Spirit

/-! The grammar of command lines and parse_command_line_min. The result keeps where the iterator stopped; the
code never looks at it. -/
namespace OsvKernel.Commands
open List Spirit Lines

def unescChar : List (List Char × Char) :=
  [(['\\','a'],'\x07'),(['\\','b'],'\x08'),(['\\','f'],'\x0c'),(['\\','n'],'\n'),(['\\','r'],'\r'),(['\\','t'],'\t'),
    (['\\','v'],'\x0b'),(['\\','\\'],'\\'),(['\\','\''],'\''),(['\\','"'],'"')]

def anyChar : Parser (List Char) := char isAscii fun c => [c]
def lit (c : Char) : Parser (List Char) := char (· = c) fun _ => []
def keep (c : Char) : Parser (List Char) := char (· = c) fun c => [c]

def string : Parser (List Char) :=
  noSkip (plus (alt (symbols unescChar) (minus (minus (minus anyChar (lit ' ')) (lit ';')) (lit '&'))))

def quotedString : Parser (List Char) :=
  lexeme (seq (seq (lit '"') (kleene (alt (symbols unescChar) (minus anyChar (lit '"'))))) (lit '"'))

def terminator : Parser (List Char) := alt (alt (alt (keep ';') (text ['&','!'])) (keep '&')) eoi

def command : Parser (List (List Char)) :=
  seq (list (element (alt quotedString string) []) blanks []) (element terminator [])

def commands : Parser (List (List (List Char))) := list (element command []) blanks []
def isIdle (c : Char) : Bool := [' ','\x0c','\n','\r','\t','\x0b',';'].contains c

def parseCommandLineMin (line : List Char) : Result (List (List (List Char))) :=
  if line.all isIdle then ⟨true,line,[]⟩ else phraseParse commands [] line

/-! What a command is. -/

def plainStop : List Char := ['&',';',' ']
def quoteStop : List Char := ['"']

inductive Quoted (s v r : List Char) : Prop
  | closed (t : List Char) : skipOver true s = '"'::t → Run unescChar quoteStop t v ('"'::r) → Quoted s v r

inductive Unclosed (s : List Char) : List Char → Prop
  | bare : (∀ t, skipOver true s ≠ '"'::t) → Unclosed s []
  | opened (t v r : List Char) : skipOver true s = '"'::t → Run unescChar quoteStop t v r → (∀ u, r ≠ '"'::u) →
      Unclosed s v

inductive Argument (s : List Char) : List Char → List Char → Prop
  | quoted (v r : List Char) : Quoted s v r → Argument s v r
  | plain (left : List Char) (c : Char) (t v r : List Char) : Unclosed s left →
      next unescChar plainStop (skipOver true s) = some (c,t) → Run unescChar plainStop t v r →
      Argument s (left ++ c::v) r

inductive Terminator (s : List Char) : List Char → List Char → Prop
  | semicolon (r : List Char) : skipOver true s = ';'::r → Terminator s [';'] r
  | newProgram (r : List Char) : skipOver true s = '&' :: '!'::r → Terminator s ['&','!'] r
  | background (r : List Char) : skipOver true s = '&'::r → (∀ t, r ≠ '!'::t) → Terminator s ['&'] r
  | finish : skipOver true s = [] → Terminator s [] []

inductive Command (s : List Char) : List (List Char) → List Char → Prop
  | ended (args : List (List Char)) (t w r : List Char) : Series Argument s args t → Terminator t w r →
      Command s (args ++ [w]) r

/-! The parsers read that. -/

variable {s r t v w : List Char}

lemma unescKeys : ∀ e ∈ unescChar, e.1 ≠ [] := by decide

lemma plainClass : Class plainStop (minus (minus (minus anyChar (lit ' ')) (lit ';')) (lit '&')) :=
  ((classAscii.minus ' ').minus ';').minus '&'

lemma quoteClass : Class quoteStop (minus anyChar (lit '"')) := classAscii.minus '"'

variable {c : Char} {skip : Bool} {arg : List Char} {args : List (List Char)} {cmds : List (List (List Char))}

lemma litTakes (a : List Char) (here : skipOver skip s = c::r) : lit c skip a s = ⟨true,r,a⟩ := by
  rw [lit,charTakes a here (decide_eq_true rfl),append_nil]

lemma litFails (a : List Char) (other : ∀ t, skipOver skip s ≠ c::t) : lit c skip a s = ⟨false,skipOver skip s,a⟩ :=
  charFails a fun _ r here => decide_eq_false fun same => other r (same ▸ here)

lemma keepTakes (a : List Char) (here : skipOver skip s = c::r) : keep c skip a s = ⟨true,r,a ++ [c]⟩ :=
  charTakes a here (decide_eq_true rfl)

lemma keepFails (a : List Char) (other : ∀ t, skipOver skip s ≠ c::t) : keep c skip a s = ⟨false,skipOver skip s,a⟩ :=
  charFails a fun _ r here => decide_eq_false fun same => other r (same ▸ here)

lemma Quoted.parsed (quoted : Quoted s v r) (a : List Char) : quotedString true a s = ⟨true,r,a ++ v⟩ := by
  obtain ⟨t,opens,run⟩ := quoted
  have first : lit '"' false a (skipOver true s) = ⟨true,t,a⟩ := litTakes a opens
  have last : lit '"' false (a ++ v) ('"'::r) = ⟨true,r,a ++ v⟩ := litTakes _ rfl
  simp [quotedString,lexeme,seq,first,run.kleene unescKeys quoteClass a,last]

lemma Unclosed.parsed (unclosed : Unclosed s v) : quotedString true [] s = ⟨false,skipOver true s,v⟩ := by
  cases unclosed with
  | bare other =>
      have first : lit '"' false [] (skipOver true s) = ⟨false,skipOver true s,[]⟩ := litFails [] other
      simp [quotedString,lexeme,seq,first,Bool.false_eq_true]
  | opened t v r opens run other =>
      have first : lit '"' false [] (skipOver true s) = ⟨true,t,[]⟩ := litTakes [] opens
      have last : lit '"' false v r = ⟨false,r,v⟩ := litFails v other
      simp only [quotedString,lexeme,seq,first,run.kleene unescKeys quoteClass [],nil_append,last,if_true,
        Bool.false_eq_true,if_false]

lemma quotedOrUnclosed (s : List Char) : (∃ v r, Quoted s v r) ∨ ∃ v, Unclosed s v := by
  by_cases opens : ∃ t, skipOver true s = '"'::t
  · obtain ⟨t,opens⟩ := opens
    obtain ⟨v,r,run⟩ := runs unescKeys quoteStop t
    by_cases closes : ∃ u, r = '"'::u
    · obtain ⟨u,rfl⟩ := closes
      exact .inl ⟨v,u,t,opens,run⟩
    · exact .inr ⟨v,.opened t v r opens run fun u eq => closes ⟨u,eq⟩⟩
  · exact .inr ⟨[],.bare fun t eq => opens ⟨t,eq⟩⟩

lemma stringTakes (first : next unescChar plainStop s = some (c,t)) (run : Run unescChar plainStop t v r)
    (skip : Bool) (a : List Char) : string skip a s = ⟨true,r,a ++ c::v⟩ := by
  simp only [string,noSkip,plus,nextParsed plainClass,first,if_true,run.kleene unescKeys plainClass,append_assoc,
    singleton_append]

lemma stringFails (first : next unescChar plainStop s = none) (skip : Bool) (a : List Char) :
    string skip a s = ⟨false,s,a⟩ := by
  simp [string,noSkip,plus,nextParsed plainClass,first,Bool.false_eq_true]

lemma argumentReads : Reads (alt quotedString string) [] Argument where
  accepts := by
    intro s w r argument
    cases argument with
    | quoted v r quoted => exact altFirst (quoted.parsed [])
    | plain left c t v r unclosed first run => exact (altSecond unclosed.parsed).trans (stringTakes first run true left)
  rejects := by
    intro s never
    rcases quotedOrUnclosed s with ⟨v,r,quoted⟩ | ⟨left,unclosed⟩
    · exact absurd (Argument.quoted v r quoted) (never v r)
    cases first : next unescChar plainStop (skipOver true s) with
    | some e =>
        obtain ⟨v,r,run⟩ := runs unescKeys plainStop e.2
        exact absurd (Argument.plain left e.1 e.2 v r unclosed first run) (never _ r)
    | none => rw [altSecond unclosed.parsed,stringFails first]
  shorter := by
    intro s w r argument
    have skipped := skipOverLength s
    cases argument with
    | quoted v r quoted =>
        obtain ⟨t,opens,run⟩ := quoted
        have less := run.length unescKeys
        simp only [opens,length_cons] at skipped less
        omega
    | plain left c t v r _ first run =>
        have less := run.length unescKeys
        have one := nextShorter unescKeys first
        omega

lemma notSemicolon (other : ∀ t, skipOver true s ≠ ';'::t) :
    alt (keep ';') (text ['&','!']) true [] s = text ['&','!'] true [] (skipOver true s) :=
  altSecond (keepFails [] other)

lemma notNewProgram (one : ∀ t, skipOver true s ≠ ';'::t) (two : ∀ t, skipOver true s ≠ '&' :: '!'::t) :
    alt (alt (keep ';') (text ['&','!'])) (keep '&') true [] s = keep '&' true [] (skipOver true s) := by
  have fails := textFails (w := ['&','!']) [] fun r => (skipOverIdem s).symm ▸ two r
  rw [skipOverIdem] at fails
  exact altSecond ((notSemicolon one).trans fails)

lemma notBackground (one : ∀ t, skipOver true s ≠ ';'::t) (two : ∀ t, skipOver true s ≠ '&'::t) :
    terminator true [] s = eoi true [] (skipOver true s) := by
  have fails := keepFails [] fun r => (skipOverIdem s).symm ▸ two r
  rw [skipOverIdem] at fails
  exact altSecond ((notNewProgram one fun t => two ('!'::t)).trans fails)

lemma Terminator.parsed (ends : Terminator s w r) : terminator true [] s = ⟨true,r,w⟩ := by
  cases ends with
  | semicolon r here => exact altFirst (altFirst (altFirst (keepTakes [] here)))
  | newProgram r here =>
      have other : ∀ t, skipOver true s ≠ ';'::t := by simp [here]
      have takes := textTakes (w := ['&','!']) [] ((skipOverIdem s).trans here)
      exact altFirst (altFirst ((notSemicolon other).trans takes))
  | background r here alone =>
      have one : ∀ t, skipOver true s ≠ ';'::t := by simp [here]
      have two : ∀ t, skipOver true s ≠ '&' :: '!'::t := by simpa [here] using alone
      exact altFirst ((notNewProgram one two).trans (keepTakes [] ((skipOverIdem s).trans here)))
  | finish here =>
      rw [notBackground (by simp [here]) (by simp [here]),here]
      rfl

lemma terminatorFails (never : ∀ w r, ¬Terminator s w r) : (terminator true [] s).ok = false := by
  have one : ∀ t, skipOver true s ≠ ';'::t := fun t here => never _ t (.semicolon t here)
  have two : ∀ t, skipOver true s ≠ '&'::t := by
    intro t here
    by_cases new : ∃ u, t = '!'::u
    · obtain ⟨u,rfl⟩ := new
      exact never _ u (.newProgram u here)
    · exact never _ t (.background t here fun u eq => new ⟨u,eq⟩)
  have three : skipOver true s ≠ [] := fun here => never _ _ (.finish here)
  rw [notBackground one two]
  simpa only [eoi,skipOverIdem,isEmpty_eq_false_iff] using three

lemma Terminator.length (ends : Terminator s w r) : r.length ≤ s.length := by
  have skipped := skipOverLength s
  cases ends with
  | semicolon r here | newProgram r here | background r here _ => simp only [here,length_cons] at skipped; omega
  | finish _ => exact Nat.zero_le _

lemma commandReads : Reads command [] Command where
  accepts := by
    intro s w r given
    obtain ⟨args,t,w,r,series,ends⟩ := given
    simp [command,seq,argumentReads.listed series,element,ends.parsed,nil_append]
  rejects := by
    intro s never
    by_cases begins : ∃ w r, Argument s w r
    · obtain ⟨w,r,one⟩ := begins
      obtain ⟨args,t,series⟩ := argumentReads.series one
      have fails := terminatorFails fun w r ends => never _ r (.ended args t w r series ends)
      simp [command,seq,argumentReads.listed series,element,fails,Bool.false_eq_true]
    have fails := argumentReads.unlisted (fun w r one => begins ⟨w,r,one⟩) []
    simp [command,seq,fails,Bool.false_eq_true]
  shorter := by
    intro s w r given
    obtain ⟨args,t,w,r,series,ends⟩ := given
    exact ends.length.trans_lt (series.shorter argumentReads)

/-! Rendered command lines. -/

def escape (c : Char) : List Char := if c = '\\' ∨ c = '"' then ['\\',c] else [c]
def quote (arg : List Char) : List Char := '"'::arg.flatMap escape ++ ['"']

inductive RenderedArgs : List (List Char) → List Char → Prop
  | last (arg : List Char) : RenderedArgs [arg] (quote arg)
  | more (arg : List Char) (args : List (List Char)) (n : Nat) (s : List Char) : RenderedArgs args s →
      RenderedArgs (arg::args) (quote arg ++ List.replicate (n + 1) ' ' ++ s)

inductive Rendered : List (List (List Char)) → List Char → Prop
  | last (args : List (List Char)) (s : List Char) : RenderedArgs args s → Rendered [args] s
  | more (args : List (List Char)) (s : List Char) (cmds : List (List (List Char))) (t : List Char) :
      RenderedArgs args s → Rendered cmds t → Rendered (args::cmds) (s ++ ';'::t)

def isPrintable (c : Char) : Bool := 32 ≤ c.toNat ∧ c.toNat < 127

def terminated : List (List (List Char)) → List (List (List Char))
  | [] => []
  | [args] => [args ++ [[]]]
  | args::cmds => (args ++ [[';']])::terminated cmds

lemma noEscape (plain : c ≠ '\\') (t : List Char) : longest unescChar (c::t) = none := by
  have differ := beq_false_of_ne plain.symm
  simp [longest,longer,unescChar,List.isPrefixOf,differ]

lemma escapedNext (printable : isPrintable c = true) (t : List Char) :
    next unescChar quoteStop (escape c ++ t) = some (c,t) := by
  by_cases slash : c = '\\'
  · subst slash
    rfl
  by_cases mark : c = '"'
  · subst mark
    rfl
  have ascii : isAscii c = true := by
    simp only [isPrintable,isAscii,decide_eq_true_eq] at printable ⊢
    omega
  simp only [escape,slash,mark,or_self,if_false,singleton_append,Spirit.next,noEscape slash]
  exact if_pos ⟨ascii,not_mem_cons_of_ne_of_not_mem mark not_mem_nil⟩

lemma escapedRun (printable : ∀ c ∈ arg, isPrintable c = true) (t : List Char) :
    Run unescChar quoteStop (arg.flatMap escape ++ '"'::t) arg ('"'::t) := by
  induction arg with
  | nil => exact .done rfl
  | cons c arg ih =>
      rw [flatMap_cons,append_assoc]
      have rest := ih fun d mem => printable d (.tail c mem)
      exact .more (escapedNext (printable c (.head _)) _) rest

lemma quotedReads (printable : ∀ c ∈ arg, isPrintable c = true) (t : List Char) : Argument (quote arg ++ t) arg t := by
  refine .quoted arg t ⟨arg.flatMap escape ++ '"'::t,?_,escapedRun printable t⟩
  simp only [quote,cons_append,append_assoc,nil_append]
  rfl

def Ends (s : List Char) : Prop := skipOver true s = [] ∨ ∃ t, skipOver true s = ';'::t

lemma Ends.noArgument (ends : Ends s) (v r : List Char) : ¬Argument s v r := by
  intro argument
  cases argument with
  | quoted v r quoted =>
      obtain ⟨t,opens,_⟩ := quoted
      rcases ends with empty | ⟨u,semicolon⟩
      · cases empty.symm.trans opens
      cases semicolon.symm.trans opens
  | plain left c t v r _ first _ =>
      rcases ends with empty | ⟨u,semicolon⟩
      · rw [empty] at first
        cases first
      rw [semicolon] at first
      cases first

lemma Ends.noCommand (ends : Ends s) (w : List (List Char)) (r : List Char) : ¬Command s w r := by
  intro given
  obtain ⟨args,t,w,r,series,_⟩ := given
  obtain ⟨v,u,first⟩ := series.begins
  exact ends.noArgument v u first

lemma Ends.skipped (ends : Ends s) : Ends (skipOver true s) := by
  unfold Ends
  rwa [skipOverIdem]

lemma RenderedArgs.opens (rendered : RenderedArgs args s) : ∃ t, s = '"'::t := by
  cases rendered with
  | last arg | more arg args n s _ => exact ⟨_,rfl⟩

lemma Rendered.opens (rendered : Rendered cmds s) : ∃ t, s = '"'::t := by
  cases rendered with
  | last args s one => exact one.opens
  | more args s cmds t one _ =>
      obtain ⟨u,rfl⟩ := one.opens
      exact ⟨_,rfl⟩

lemma skipSpaces (n : Nat) (s : List Char) : skipOver true (List.replicate n ' ' ++ '"'::s) = '"'::s := by
  induction n with
  | zero => rfl
  | succ n ih => exact ih

lemma RenderedArgs.series (rendered : RenderedArgs args s)
    (printable : ∀ arg ∈ args, ∀ c ∈ arg, isPrintable c = true) (ends : Ends t) :
    Series Argument (s ++ t) args t := by
  induction rendered with
  | last arg => exact .last (quotedReads (printable arg (.head _)) t) ends.skipped.noArgument
  | more arg args n s rest ih =>
      have later := ih fun a mem => printable a (.tail arg mem)
      obtain ⟨u,rfl⟩ := rest.opens
      rw [append_assoc,append_assoc]
      refine .more (quotedReads (printable arg (.head _)) _) ?_
      rw [cons_append,skipSpaces]
      exact later

lemma Rendered.series (rendered : Rendered cmds s)
    (printable : ∀ args ∈ cmds, ∀ arg ∈ args, ∀ c ∈ arg, isPrintable c = true) :
    Series Command s (terminated cmds) [] := by
  induction rendered with
  | last args s one =>
      have done : Ends [] := .inl rfl
      have series := one.series (printable args (.head _)) done
      rw [append_nil] at series
      exact .last (.ended args [] [] [] series (.finish rfl)) done.skipped.noCommand
  | more args s cmds t one rest ih =>
      have series := one.series (printable args (.head _)) (show Ends (';'::t) from .inr ⟨t,rfl⟩)
      have later := ih fun a mem => printable a (.tail args mem)
      have first : Command (s ++ ';'::t) (args ++ [[';']]) t := .ended args _ _ _ series (.semicolon t rfl)
      obtain ⟨u,rfl⟩ := rest.opens
      cases cmds with
      | nil => cases rest
      | cons next cmds => exact .more first later

lemma seriesParsed (series : Series Command s cmds r) (busy : s.all isIdle = false) :
    parseCommandLineMin s = ⟨true,skipOver true r,cmds⟩ := by
  simp only [parseCommandLineMin,busy,Bool.false_eq_true,if_false,phraseParse,commands,commandReads.listed series,if_true,
    nil_append]

lemma idleEnds (idle : ∀ c ∈ s, isIdle c = true) : Ends s := by
  unfold Ends
  cases eq : skipOver true s with
  | nil => exact .inl rfl
  | cons c t =>
      have mem : c ∈ s := (dropWhile_suffix isSpace).subset (by rw [show s.dropWhile isSpace = _ from eq]; simp)
      have blank := skipOverHead eq
      have known := idle c mem
      simp only [isIdle,contains_cons,contains_nil,Bool.or_false,Bool.or_eq_true,beq_iff_eq] at known
      rcases known with rfl | rfl | rfl | rfl | rfl | rfl | rfl
      all_goals first | exact absurd blank (by decide) | exact .inr ⟨t,rfl⟩

lemma blankIdle (blank : isSpace c = true) : isIdle c = true := by
  simp only [isSpace,contains_iff_mem,mem_cons,not_mem_nil,or_false] at blank
  rcases blank with rfl | rfl | rfl | rfl | rfl | rfl
  all_goals rfl

lemma skippedIdle : (∀ c ∈ skipOver true s, isIdle c = true) ↔ ∀ c ∈ s, isIdle c = true := by
  constructor
  · intro idle c mem
    have split : s.takeWhile isSpace ++ skipOver true s = s := takeWhile_append_dropWhile
    rw [← split,mem_append] at mem
    rcases mem with blank | later
    · exact blankIdle (mem_takeWhile_imp blank)
    · exact idle c later
  intro idle c mem
  exact idle c ((dropWhile_suffix isSpace).subset mem)

def Continues (line : List Char) : Prop :=
  ∀ r, After Command line r → (∀ c ∈ r, isIdle c = true) ∨ ∃ w t, Command (skipOver true r) w t

lemma allParsed (line : List Char) :
    ((parseCommandLineMin line).ok = true → ∀ c ∈ (parseCommandLineMin line).rest, isIdle c = true) ↔ Continues line := by
  by_cases busy : line.all isIdle = true
  · have idle := all_eq_true.mp busy
    have same : parseCommandLineMin line = ⟨true,line,[]⟩ := by simp [parseCommandLineMin,busy]
    rw [same]
    refine ⟨fun _ r after => ?_,fun _ _ => idle⟩
    obtain ⟨w,t,first⟩ := after.begins
    exact absurd first ((idleEnds idle).noCommand w t)
  rw [Bool.not_eq_true] at busy
  by_cases begins : ∃ w r, Command line w r
  · obtain ⟨w,r,first⟩ := begins
    obtain ⟨cmds,last,series⟩ := commandReads.series first
    rw [seriesParsed series busy]
    simp only [true_imp_iff,skippedIdle]
    constructor
    · intro idle r after
      rcases series.course commandReads after with rfl | goes
      · exact .inl idle
      · exact .inr goes
    intro continues
    rcases continues last series.after with idle | ⟨w,t,more⟩
    · exact idle
    · exact absurd more (series.stops w t)
  have fails := commandReads.unlisted (fun w r first => begins ⟨w,r,first⟩) []
  have refused : (parseCommandLineMin line).ok = false := by
    simp [parseCommandLineMin,busy,Bool.false_eq_true,phraseParse,commands,fails]
  refine ⟨fun _ r after => absurd after.begins begins,fun _ ok => ?_⟩
  cases ok.symm.trans refused

theorem commandLines (line : List Char) :
    (∀ cmds, Rendered cmds line → (∀ args ∈ cmds, ∀ arg ∈ args, ∀ c ∈ arg, isPrintable c = true) →
      (parseCommandLineMin line).ok = true ∧ (parseCommandLineMin line).attr = terminated cmds) ∧
    (((parseCommandLineMin line).ok = true → ∀ c ∈ (parseCommandLineMin line).rest, isIdle c = true) ↔
      Continues line) := by
  refine ⟨fun cmds rendered printable => ?_,allParsed line⟩
  have busy : line.all isIdle = false := by
    obtain ⟨t,rfl⟩ := rendered.opens
    rfl
  rw [seriesParsed (rendered.series printable) busy]
  exact ⟨rfl,rfl⟩

theorem commandLinesEcho : (parseCommandLineMin (quote ['a',' ','"'] ++ ';'::quote ['b'])).attr =
    [[['a',' ','"'],[';']],[['b'],[]]] :=
  ((commandLines _).1 [[['a',' ','"']],[['b']]] (.more _ _ _ _ (.last _) (.last _ _ (.last _))) (by simp [isPrintable])).2

theorem commandDropped :
    (parseCommandLineMin ['a',';',';','b']).ok = true ∧ 'b' ∈ (parseCommandLineMin ['a',';',';','b']).rest ∧
      isIdle 'b' = false ∧ (parseCommandLineMin ['a',';',';','b']).attr = [[['a'],[';']]] := by
  decide

end OsvKernel.Commands
