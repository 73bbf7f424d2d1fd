import OsvKernel.Lines

/-! The parsers of Boost.Spirit Qi as its documentation describes them. They work on an iterator and an attribute
by reference: a parser that fails may have moved the iterator over skipped blanks and may have left something in
the attribute. The flag says whether there is a skipper. -/
namespace Spirit
open List Bool Lines

structure Result (A : Type) where
  ok : Bool
  rest : List Char
  attr : A

def Parser (A : Type) := Bool → A → List Char → Result A
def isAscii (c : Char) : Bool := c.toNat < 128
def skipOver (skip : Bool) (s : List Char) : List Char := if skip then s.dropWhile isSpace else s

section
variable {A B : Type}

def char (test : Char → Bool) (keep : Char → List Char) : Parser (List Char) := fun skip a s =>
  match skipOver skip s with
  | [] => ⟨false,[],a⟩
  | c::rest => if test c then ⟨true,rest,a ++ keep c⟩ else ⟨false,c::rest,a⟩

def text (w : List Char) : Parser (List Char) := fun skip a s =>
  let s := skipOver skip s
  if w.isPrefixOf s then ⟨true,s.drop w.length,a ++ w⟩ else ⟨false,s,a⟩

def longer (s : List Char) (best : Option (List Char × Char)) (e : List Char × Char) : Option (List Char × Char) :=
  if e.1.isPrefixOf s ∧ ∀ b ∈ best, b.1.length < e.1.length then some e else best

def longest (table : List (List Char × Char)) (s : List Char) : Option (List Char × Char) :=
  table.foldl (longer s) none

def symbols (table : List (List Char × Char)) : Parser (List Char) := fun skip a s =>
  let s := skipOver skip s
  match longest table s with
  | some (key,value) => ⟨true,s.drop key.length,a ++ [value]⟩
  | none => ⟨false,s,a⟩

def eoi : Parser A := fun skip a s => ⟨(skipOver skip s).isEmpty,skipOver skip s,a⟩

def alt (p q : Parser A) : Parser A := fun skip a s =>
  let r := p skip a s
  if r.ok then r else q skip r.attr r.rest

def seq (p q : Parser A) : Parser A := fun skip a s =>
  let r := p skip a s
  if r.ok then
    let r := q skip r.attr r.rest
    if r.ok then r else ⟨false,s,r.attr⟩
  else ⟨false,s,r.attr⟩

def minus (p q : Parser A) : Parser A := fun skip a s => if (q skip a s).ok then ⟨false,s,a⟩ else p skip a s
def noSkip (p : Parser A) : Parser A := fun _ a s => p false a s
def lexeme (p : Parser A) : Parser A := fun skip a s => p false a (skipOver skip s)

def rounds (p : Parser A) (skip : Bool) : Nat → A → List Char → Result A
  | 0,a,s => ⟨true,s,a⟩
  | n+1,a,s =>
    let r := p skip a s
    if r.ok then rounds p skip n r.attr r.rest else r

def kleene (p : Parser A) : Parser A := fun skip a s =>
  let r := rounds p skip (s.length + 1) a s
  ⟨true,r.rest,r.attr⟩

def plus (p : Parser A) : Parser A := fun skip a s =>
  let r := p skip a s
  if r.ok then kleene p skip r.attr r.rest else ⟨false,s,r.attr⟩

def element (p : Parser A) (new : A) : Parser (List A) := fun skip a s =>
  let r := p skip new s
  if r.ok then ⟨true,r.rest,a ++ [r.attr]⟩ else ⟨false,r.rest,a⟩

def listRounds (p : Parser A) (sep : Parser B) (unused : B) (skip : Bool) : Nat → A → List Char → Result A
  | 0,a,save => ⟨true,save,a⟩
  | n+1,a,save =>
    let between := sep skip unused save
    if between.ok then
      let r := p skip a between.rest
      if r.ok then listRounds p sep unused skip n r.attr r.rest else ⟨true,save,r.attr⟩
    else ⟨true,save,a⟩

def list (p : Parser A) (sep : Parser B) (unused : B) : Parser A := fun skip a s =>
  let r := p skip a s
  if r.ok then listRounds p sep unused skip (s.length + 1) r.attr r.rest else ⟨false,s,r.attr⟩

def phraseParse (p : Parser A) (a : A) (s : List Char) : Result A :=
  let r := p true a s
  if r.ok then ⟨true,skipOver true r.rest,r.attr⟩ else r

def blanks : Parser (List Char) := kleene (char isSpace fun _ => [])

/-! What a parser reads, as a relation between a text, the attribute and what is left. -/

structure Reads (p : Parser A) (new : A) (R : List Char → A → List Char → Prop) : Prop where
  accepts : ∀ {s w r}, R s w r → p true new s = ⟨true,r,w⟩
  rejects : ∀ {s}, (∀ w r, ¬R s w r) → (p true new s).ok = false
  shorter : ∀ {s w r}, R s w r → r.length < s.length

inductive Series (R : List Char → A → List Char → Prop) : List Char → List A → List Char → Prop
  | last : R s w r → (∀ v t, ¬R (skipOver true r) v t) → Series R s [w] r
  | more : R s w t → Series R (skipOver true t) ws r → Series R s (w::ws) r

inductive After (R : List Char → A → List Char → Prop) : List Char → List Char → Prop
  | one : R s w r → After R s r
  | more : R s w t → After R (skipOver true t) r → After R s r

variable {R : List Char → A → List Char → Prop} {s r t : List Char}

lemma skipOverIdem (s : List Char) : skipOver true (skipOver true s) = skipOver true s :=
  dropWhile_idempotent isSpace s

variable {c : Char} {skip : Bool} {a b w : A} {q : Parser A} {ws : List A} {test : Char → Bool}

lemma skipOverHead (eq : skipOver true s = c::r) : isSpace c = false := by
  have first := List.head?_dropWhile_not isSpace s
  simp only [skipOver,if_true] at eq
  rw [eq] at first
  simpa using first

lemma skipOverLength (s : List Char) : (skipOver true s).length ≤ s.length :=
  (dropWhile_suffix isSpace).length_le

lemma charTakes {kept : Char → List Char} (a : List Char)
    (here : skipOver skip s = c::r) (ok : test c = true) : char test kept skip a s = ⟨true,r,a ++ kept c⟩ := by
  simp [char,here,ok]

lemma charFails {kept : Char → List Char} {skip : Bool} (a : List Char)
    (other : ∀ c r, skipOver skip s = c::r → test c = false) :
    char test kept skip a s = ⟨false,skipOver skip s,a⟩ := by
  unfold char
  cases eq : skipOver skip s with
  | nil => rfl
  | cons c rest => simp [other c rest eq,false_eq_true]

lemma textTakes {w : List Char} (a : List Char) (here : skipOver skip s = w ++ r) :
    text w skip a s = ⟨true,r,a ++ w⟩ := by
  simp [text,here]

lemma textFails {w : List Char} (a : List Char) (other : ∀ r, skipOver skip s ≠ w ++ r) :
    text w skip a s = ⟨false,skipOver skip s,a⟩ := by
  have fails : ¬w.isPrefixOf (skipOver skip s) := by
    intro fits
    obtain ⟨r,eq⟩ := List.isPrefixOf_iff_prefix.mp fits
    exact other r eq.symm
  simp [text,fails,false_eq_true]

lemma blanksSkip (a s : List Char) : blanks true a s = ⟨true,skipOver true s,a⟩ := by
  have fails := @charFails s isSpace (fun _ => []) true a fun c r eq => skipOverHead eq
  simp [blanks,kleene,rounds,fails,false_eq_true]

variable {p : Parser A} {new : A}

lemma altFirst (one : p skip a s = ⟨true,r,b⟩) : alt p q skip a s = ⟨true,r,b⟩ := by
  simp [alt,one]

lemma altSecond (one : p skip a s = ⟨false,r,b⟩) : alt p q skip a s = q skip b r := by
  simp [alt,one,false_eq_true]

lemma Reads.functional (reads : Reads p new R) {v : A} (one : R s v r) (two : R s w t) : v = w ∧ r = t := by
  have eq := (reads.accepts one).symm.trans (reads.accepts two)
  injection eq with _ rest attr
  exact ⟨attr,rest⟩

lemma Reads.pushes (reads : Reads p new R) (one : R s w r) (a : List A) : element p new true a s = ⟨true,r,a ++ [w]⟩ := by
  simp [element,reads.accepts one]

lemma Reads.refuses (reads : Reads p new R) (never : ∀ w r, ¬R s w r) (a : List A) :
    ∃ rest, element p new true a s = ⟨false,rest,a⟩ := by
  refine ⟨(p true new s).rest,?_⟩
  simp [element,reads.rejects never,false_eq_true]

lemma Series.rounds (series : Series R s ws r) (reads : Reads p new R) (a : List A) (n : Nat) (enough : s.length ≤ n) :
    ∃ w t, element p new true a s = ⟨true,t,a ++ [w]⟩ ∧
      listRounds (element p new) blanks [] true n (a ++ [w]) t = ⟨true,r,a ++ ws⟩ := by
  induction series generalizing a n with
  | @last s w r one stops =>
    obtain ⟨rest,refused⟩ := reads.refuses stops (a ++ [w])
    refine ⟨_,_,reads.pushes one a,?_⟩
    cases n with
    | zero => exact absurd (reads.shorter one) (by omega)
    | succ n => simp [listRounds,blanksSkip,refused,false_eq_true]
  | @more s w t ws r one series ih => ?_
  refine ⟨_,_,reads.pushes one a,?_⟩
  have less := reads.shorter one
  have skipped := skipOverLength t
  rcases n with _ | n
  · omega
  obtain ⟨v,u,pushed,loop⟩ := ih (a ++ [w]) n (by omega)
  simp only [listRounds,blanksSkip,pushed,if_true]
  simpa only [append_assoc,singleton_append] using loop

lemma Reads.listed (reads : Reads p new R) (series : Series R s ws r) (a : List A) :
    list (element p new) blanks [] true a s = ⟨true,r,a ++ ws⟩ := by
  obtain ⟨w,t,pushed,loop⟩ := series.rounds reads a (s.length + 1) (by omega)
  simp [list,pushed,loop]

lemma Reads.unlisted (reads : Reads p new R) (never : ∀ w r, ¬R s w r) (a : List A) :
    list (element p new) blanks [] true a s = ⟨false,s,a⟩ := by
  obtain ⟨rest,refused⟩ := reads.refuses never a
  simp [list,refused,false_eq_true]

lemma Reads.series (reads : Reads p new R) (one : R s w r) : ∃ ws t, Series R s ws t := by
  -- on a bound for the length of the text
  obtain ⟨n,le⟩ : ∃ n, s.length ≤ n := ⟨_,le_rfl⟩
  induction n generalizing s w r with
  | zero => exact absurd (reads.shorter one) (by omega)
  | succ n ih => ?_
  by_cases next : ∃ v t, R (skipOver true r) v t
  · obtain ⟨v,t,next⟩ := next
    have less := reads.shorter one
    have skipped := skipOverLength r
    obtain ⟨ws,u,rest⟩ := ih next (by omega)
    exact ⟨_,u,.more one rest⟩
  · exact ⟨_,r,.last one fun v t more => next ⟨v,t,more⟩⟩

lemma Series.shorter (series : Series R s ws r) (reads : Reads p new R) : r.length < s.length := by
  induction series with
  | last one _ => exact reads.shorter one
  | more one _ ih => exact (ih.trans_le (skipOverLength _)).trans (reads.shorter one)

lemma Series.begins (series : Series R s ws r) : ∃ w t, R s w t := by
  cases series with
  | last one _ | more one _ => exact ⟨_,_,one⟩

lemma Series.stops (series : Series R s ws r) (v : A) (t : List Char) : ¬R (skipOver true r) v t := by
  induction series with
  | last _ stops => exact stops v t
  | more _ _ ih => exact ih

lemma Series.after {ws : List A} (series : Series R s ws r) : After R s r := by
  induction series with
  | last one _ => exact .one one
  | more one _ ih => exact .more one ih

lemma After.begins (after : After R s r) : ∃ w t, R s w t := by
  cases after with
  | one one | more one _ => exact ⟨_,_,one⟩

lemma Series.course (series : Series R s ws r) (reads : Reads p new R) (after : After R s t) :
    t = r ∨ ∃ w u, R (skipOver true t) w u := by
  induction series with
  | last one stops =>
    rcases after with other | ⟨other,next⟩
    · exact .inl (reads.functional other one).2
    obtain ⟨v,u,next⟩ := next.begins
    rw [(reads.functional other one).2] at next
    exact absurd next (stops v u)
  | more one series ih => ?_
  rcases after with other | ⟨other,next⟩
  · rw [(reads.functional other one).2]
    exact .inr series.begins
  rw [(reads.functional other one).2] at next
  exact ih next

end

/-! Loops over single characters without a skipper. -/
def Class (stop : List Char) (p : Parser (List Char)) : Prop :=
  ∀ a s, p false a s = match s with
    | [] => ⟨false,[],a⟩
    | c::r => if isAscii c ∧ c ∉ stop then ⟨true,r,a ++ [c]⟩ else ⟨false,c::r,a⟩

def next (table : List (List Char × Char)) (stop s : List Char) : Option (Char × List Char) :=
  match longest table s with
  | some (key,value) => some (value,s.drop key.length)
  | none =>
    match s with
    | [] => none
    | c::r => if isAscii c ∧ c ∉ stop then some (c,r) else none

inductive Run (table : List (List Char × Char)) (stop : List Char) : List Char → List Char → List Char → Prop
  | done : next table stop s = none → Run table stop s [] s
  | more : next table stop s = some (c,t) → Run table stop t v r → Run table stop s (c::v) r

section
variable {table : List (List Char × Char)} {s r v stop : List Char} {p : Parser (List Char)}

variable {e : List Char × Char}

lemma longestFrom {acc : Option (List Char × Char)}
    (found : table.foldl (longer s) acc = some e) : acc = some e ∨ e ∈ table ∧ e.1 <+: s := by
  induction table generalizing acc with
  | nil => exact .inl found
  | cons d table ih => ?_
  rcases ih found with here | ⟨mem,fits⟩
  · unfold longer at here
    split at here
    next better =>
      cases here
      exact .inr ⟨.head _,List.isPrefixOf_iff_prefix.mp better.1⟩
    · exact .inl here
  · exact .inr ⟨.tail d mem,fits⟩

lemma longestFits (found : longest table s = some e) : e ∈ table ∧ e.1 <+: s :=
  (longestFrom found).resolve_left nofun

lemma classAscii : Class [] (char isAscii fun c => [c]) := by
  intro a s
  cases s with
  | nil => rfl
  | cons c r => simp [char,skipOver]

lemma Class.minus (known : Class stop p) (d : Char) : Class (d::stop) (minus p (char (· = d) fun _ => [])) := by
  intro a s
  rcases s with _ | ⟨c,r⟩
  · exact known a []
  simp only [Spirit.minus,char,skipOver,false_eq_true,if_false,decide_eq_true_eq,known a (c::r),mem_cons]
  by_cases eq : c = d
  · simp [eq]
  · simp [eq]

lemma nextParsed (known : Class stop p) (a : List Char) : alt (symbols table) p false a s = match next table stop s with
      | some (c,r) => ⟨true,r,a ++ [c]⟩
      | none => ⟨false,s,a⟩ := by
  unfold alt symbols next
  simp only [skipOver,false_eq_true,if_false]
  cases longest table s
  case some e => rfl
  simp only [false_eq_true,if_false,known a s]
  rcases s with _ | ⟨c,r⟩
  · rfl
  simp only
  split <;> rfl

lemma nextShorter (keys : ∀ e ∈ table, e.1 ≠ []) {c : Char} (found : next table stop s = some (c,r)) :
    r.length < s.length := by
  unfold next at found
  split at found
  next key value eq =>
    obtain ⟨mem,fits⟩ := longestFits eq
    cases found
    have some := length_pos_iff.mpr (keys _ mem)
    have le : key.length ≤ s.length := fits.length_le
    rw [length_drop]
    exact Nat.sub_lt (some.trans_le le) some
  rcases s with _ | ⟨d,t⟩
  · exact nomatch found
  simp only [Option.ite_none_right_eq_some,Option.some.injEq,Prod.mk.injEq] at found
  obtain ⟨_,_,rfl⟩ := found
  exact Nat.lt_succ_self _

section
variable (run : Run table stop s v r) (keys : ∀ e ∈ table, e.1 ≠ []) (known : Class stop p) (a : List Char)
include run keys known a

lemma Run.rounds (n : Nat) (enough : s.length < n) : rounds (alt (symbols table) p) false n a s = ⟨false,r,a ++ v⟩ := by
  induction run generalizing a n with
  | done none =>
    obtain ⟨m,rfl⟩ := Nat.exists_eq_succ_of_ne_zero (Nat.ne_zero_of_lt enough)
    simp [Spirit.rounds,nextParsed known,none,false_eq_true,append_nil]
  | more one _ ih => ?_
  obtain ⟨m,rfl⟩ := Nat.exists_eq_succ_of_ne_zero (Nat.ne_zero_of_lt enough)
  have less := nextShorter keys one
  simp only [Spirit.rounds,nextParsed known,one,if_true]
  rw [ih _ m (by omega),append_assoc,singleton_append]

lemma Run.kleene : kleene (alt (symbols table) p) false a s = ⟨true,r,a ++ v⟩ := by
  simp [Spirit.kleene,run.rounds keys known a _ (Nat.lt_succ_self _)]

end

lemma runs (keys : ∀ e ∈ table, e.1 ≠ []) (stop s : List Char) : ∃ v r, Run table stop s v r := by
  obtain ⟨n,le⟩ : ∃ n, s.length ≤ n := ⟨_,le_rfl⟩
  induction n generalizing s with
  | zero =>
    cases eq : next table stop s with
    | none => exact ⟨_,_,.done eq⟩
    | some e => exact absurd (nextShorter keys eq) (by omega)
  | succ n ih => ?_
  rcases eq : next table stop s with _ | e
  · exact ⟨_,_,.done eq⟩
  have less := nextShorter keys eq
  obtain ⟨v,r,run⟩ := ih e.2 (by omega)
  exact ⟨_,_,.more eq run⟩

lemma Run.length (run : Run table stop s v r) (keys : ∀ e ∈ table, e.1 ≠ []) : r.length ≤ s.length := by
  induction run with
  | done _ => exact le_rfl
  | more one _ ih => exact ih.trans (nextShorter keys one).le

end
end Spirit
