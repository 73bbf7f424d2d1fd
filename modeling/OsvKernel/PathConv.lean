import OsvKernel.Segments

/-! Full paths from a working directory and a path (path_conv in fs/vfs/vfs_task.cc). A string is
the list of its characters before the terminator. -/
namespace OsvKernel.PathConv
open List Option Segments

def pathMax : Nat := 4096

def dot : List Char := ['.']
def dotdot : List Char := ['.','.']

structure Cursor where
  full : List Char
  len : Nat
  deriving DecidableEq, Repr

def seekSlash (full : List Char) : Nat → Nat
  | 0 => 0
  | i+1 => if full[i+1]? = some '/' then i + 1 else seekSlash full i

namespace Cursor

def up (c : Cursor) : Cursor :=
  if c.len ≥ 2 then
    let i := seekSlash c.full (c.full.length - 2)
    let len := c.len - 2 - (c.full.length - 2 - i)
    if len = 0 then ⟨c.full.take (i + 1),len + 1⟩ else ⟨c.full.take i,len⟩
  else c

def copy (c : Cursor) (name : List Char) : Cursor := ⟨c.full ++ name,c.len + name.length⟩

def component (c : Cursor) (name : List Char) : Cursor :=
  if name = dotdot then c.up else if name = dot then c else c.copy name

def slash (c : Cursor) : Cursor :=
  if c.len > 0 ∧ c.full.getLast? ≠ some '/' then ⟨c.full ++ ['/'],c.len + 1⟩ else c

end Cursor

def convLoop : Nat → List Char → Cursor → Cursor
  | 0,_,c => c
  | n+1,src,c =>
    if src = [] then c else
    let c := c.component (src.takeWhile (· ≠ '/'))
    match src.dropWhile (· ≠ '/') with
    | [] => c
    | _::rest => convLoop n rest c.slash

def begins (wd path : List Char) : Cursor :=
  let c : Cursor := ⟨wd.take (pathMax - 1),wd.length⟩
  if c.len > 1 ∧ path.head? ≠ some '.' then ⟨c.full ++ ['/'],c.len + 1⟩ else c

def pathConv (wd cpath : List Char) : Option (List Char) :=
  let path := cpath.take (pathMax - 1)
  if path.length ≥ pathMax then none
  else if wd.length + path.length ≥ pathMax then none
  else if path.head? = some '/' then some (convLoop path.length path.tail ⟨['/'],1⟩).full
  else some (convLoop (path.length + 1) path (begins wd path)).full

def taskConv (cwd cpath : List Char) : Option (List Char) := pathConv cwd cpath

/-- What a component does to the names before it. -/
def step (names : List (List Char)) (name : List Char) : List (List Char) :=
  if name = dotdot then names.dropLast else if name = dot ∨ name = [] then names else names ++ [name]

def normalise (names components : List (List Char)) : List (List Char) := components.foldl step names
abbrev components (l : List Char) : List (List Char) := segments '/' l

def Name (n : List Char) : Prop := Segment '/' n ∧ n ≠ dot ∧ n ≠ dotdot
  deriving Decidable

def Normal (wd : List Char) : Prop := wd = ['/'] ∨ ∃ names, names ≠ [] ∧ (∀ n ∈ names, Name n) ∧ wd = flat '/' names

def climb : List (List Char) → Nat
  | [] => 0
  | n::rest => if n = dotdot then climb rest + 1 else if n = dot ∨ n = [] then climb rest else climb rest - 1

def Tidy : List (List Char) → Prop
  | [] => True
  | [n] => n ≠ dot ∧ n ≠ dotdot
  | n::rest => n ≠ [] ∧ n ≠ dot ∧ n ≠ dotdot ∧ Tidy rest

def decideTidy : (ps : List (List Char)) → Decidable (Tidy ps)
  | [] => isTrue trivial
  | [_] => inferInstanceAs (Decidable (_ ∧ _))
  | _::n::rest =>
    have := decideTidy (n::rest)
    inferInstanceAs (Decidable (_ ∧ _ ∧ _ ∧ _))

instance (ps : List (List Char)) : Decidable (Tidy ps) := decideTidy ps

def Fits (wd path : List Char) : Prop :=
  path.head? = some '/' ∨ wd = ['/'] ∨
    match path.splitOn '/' with
    | [] => True
    | first::rest =>
      if first.head? = some '.' then first = dot ∨ first = dotdot ∨ (components wd).length < climb rest
      else wd.length + path.length + 1 < pathMax ∨ ¬ Tidy (first::rest)

instance (wd path : List Char) : Decidable (Fits wd path) := by
  unfold Fits
  cases path.splitOn '/' <;> infer_instance

structure Converted (wd path full : List Char) : Prop where
  names : components full =
    normalise [] (if path.head? = some '/' then components path else components wd ++ components path)
  absolute : full.head? = some '/'
  room : full.length + 1 ≤ pathMax

variable {names ps rest : List (List Char)} {n w wd path full : List Char} {c : Cursor}

def walk : List (List Char) → Cursor → Cursor
  | [],c => c
  | [n],c => c.component n
  | n::rest,c => walk rest (c.component n).slash

open Cursor

lemma walkCons (more : rest ≠ []) : walk (n::rest) c = walk rest (c.component n).slash := by
  cases rest with
  | nil => exact absurd rfl more
  | cons next rest => rfl

variable {k : Nat} {front : List (List Char)} {first : List Char}

lemma convLoopWalk {src : List Char} (enough : src.length < k) : convLoop k src c = walk (src.splitOn '/') c := by
  induction k generalizing src c with
  | zero => exact absurd enough (Nat.not_lt_zero _)
  | succ k ih => ?_
  rw [convLoop]
  split
  next empty =>
    rw [empty]
    simp [walk,component,copy,dot,dotdot]
  rw [splitOnCut]
  rcases cut : src.dropWhile (· ≠ '/') with _ | ⟨slash,rest⟩
  · rfl
  have shorter : rest.length < k := by
    have less := (dropWhile_suffix (p := (· ≠ '/')) (l := src)).length_le
    rw [cut,length_cons] at less
    omega
  simp only [walkCons (splitOn_ne_nil '/' rest)]
  exact ih shorter

def closed (names : List (List Char)) : Cursor := ⟨flat '/' names ++ ['/'],(flat '/' names).length + 1⟩
def opened (names : List (List Char)) : Cursor := ⟨flat '/' names,(flat '/' names).length⟩
def Shows (names : List (List Char)) (c : Cursor) : Prop := c = closed names ∨ names ≠ [] ∧ c = opened names
abbrev Segs (names : List (List Char)) : Prop := ∀ n ∈ names, Segment '/' n

lemma Shows.components (shows_ : Shows names c) (segs : Segs names) : components c.full = names := by
  rcases shows_ with rfl | ⟨-,rfl⟩
  · exact segmentsFlatSep segs
  · exact segmentsFlat segs

lemma flatHead (more : names ≠ []) : (flat '/' names).head? = some '/' := by
  cases names with
  | nil => exact absurd rfl more
  | cons n rest => rfl

lemma Shows.absolute (shows_ : Shows names c) : c.full.head? = some '/' := by
  rcases shows_ with rfl | ⟨more,rfl⟩
  · cases names with
    | nil | cons n rest => rfl
  · exact flatHead more

lemma flatEmpty : flat '/' names = [] ↔ names = [] := by
  cases names <;> simp [flat]

lemma slashClosed : (closed names).slash = closed names := by
  simp [slash,closed]

lemma lastSplit {names : List (List Char)} (more : names ≠ []) : ∃ front last, names = front ++ [last] :=
  ⟨names.dropLast,names.getLast more,(dropLast_concat_getLast more).symm⟩

lemma slashOpened (more : names ≠ []) (segs : Segs names) : (opened names).slash = closed names := by
  obtain ⟨front,last,rfl⟩ := lastSplit more
  obtain ⟨filled,clean⟩ := segs last (by simp)
  have ends : (flat '/' (front ++ [last])).getLast? ≠ some '/' := by
    rw [flatAppend,flatCons,flatNil,append_nil,getLast?_append_cons]
    rw [getLast?_cons,getLast?_eq_some_getLast filled]
    simp only [getD_some,ne_eq,some.injEq]
    exact fun eq => clean (eq ▸ getLast_mem filled)
  have positive : 0 < (flat '/' (front ++ [last])).length := by
    rw [flatAppend,flatCons,length_append,length_cons]
    omega
  rw [slash,if_pos ⟨positive,ends⟩]
  rfl

lemma Shows.slash (shows_ : Shows names c) (segs : Segs names) : c.slash = closed names := by
  rcases shows_ with rfl | ⟨more,rfl⟩
  · exact slashClosed
  · exact slashOpened more segs

lemma seekSlashAt {front tail : List Char} (clean : '/' ∉ w) {i : Nat} (low : front.length ≤ i) (high : i ≤ front.length + w.length) :
    seekSlash (front ++ '/'::(w ++ tail)) i = front.length := by
  induction i with
  | zero => exact (Nat.le_zero.mp low).symm
  | succ i ih => ?_
  rw [seekSlash]
  by_cases here : i + 1 = front.length
  · rw [here,if_pos (by simp)]
  have inside : (front ++ '/'::(w ++ tail))[i+1]? ≠ some '/' := by
    have later : front.length ≤ i := by omega
    rw [getElem?_append_right (by omega),show i + 1 - front.length = (i - front.length) + 1 by omega,
      getElem?_cons_succ,getElem?_append_left (by omega)]
    intro eq
    exact clean (mem_of_getElem? eq)
  rw [if_neg inside]
  exact ih (by omega) (by omega)

lemma upAt {t : List Char} (segment : Segment '/' w) (short : t.length ≤ 1)
    (written : c.full = flat '/' front ++ '/'::(w ++ t)) (count : c.len = c.full.length) :
    c.up = if front = [] then closed [] else opened front := by
  have filled := length_pos_iff.mpr segment.1
  have length : c.full.length = (flat '/' front).length + 1 + w.length + t.length := by
    rw [written]
    simp only [length_append,length_cons]
    omega
  have found : seekSlash c.full (c.full.length - 2) = (flat '/' front).length := by
    rw [length,written]
    exact seekSlashAt segment.2 (by omega) (by omega)
  rw [up,if_pos (by omega)]
  simp only [found]
  have left : c.len - 2 - (c.full.length - 2 - (flat '/' front).length) = (flat '/' front).length := by omega
  rw [left]
  by_cases root : front = []
  · subst root
    rw [if_pos (by rfl),if_pos rfl,written]
    simp [closed,flat]
  have deeper : (flat '/' front).length ≠ 0 := fun zero => root (flatEmpty.mp (length_eq_zero_iff.mp zero))
  rw [if_neg deeper,if_neg root,written,take_left]
  rfl

lemma upClosedAt (segs : Segs names) :
    (closed names).up = if names.dropLast = [] then closed [] else opened names.dropLast := by
  by_cases none : names = []
  · subst none
    rfl
  obtain ⟨front,last,rfl⟩ := lastSplit none
  rw [dropLast_concat]
  refine upAt (t := ['/']) (segs last (by simp)) (by simp) ?_ (by simp only [closed,length_append,length_singleton])
  simp [closed]

lemma upOpenedAt (more : names ≠ []) (segs : Segs names) :
    (opened names).up = if names.dropLast = [] then closed [] else opened names.dropLast := by
  obtain ⟨front,last,rfl⟩ := lastSplit more
  rw [dropLast_concat]
  refine upAt (t := []) (segs last (by simp)) (by simp) ?_ rfl
  simp [opened]

lemma upShows (up : c = if names = [] then closed [] else opened names) : Shows names c := by
  split at up
  next empty =>
    subst empty
    exact .inl up
  next more => exact .inr ⟨more,up⟩

lemma upClosed (segs : Segs names) : Shows names.dropLast (closed names).up := upShows (upClosedAt segs)

lemma upOpened (more : names ≠ []) (segs : Segs names) : Shows names.dropLast (opened names).up :=
  upShows (upOpenedAt more segs)

lemma componentClosed (segs : Segs names) (n : List Char) : Shows (step names n) ((closed names).component n) := by
  rw [component,step]
  by_cases parent : n = dotdot
  · rw [if_pos parent,if_pos parent]
    exact upClosed segs
  rw [if_neg parent,if_neg parent]
  by_cases same : n = dot
  · rw [if_pos same,if_pos (.inl same)]
    exact .inl rfl
  rw [if_neg same]
  by_cases empty : n = []
  · rw [if_pos (.inr empty),empty]
    left
    simp [copy]
  rw [if_neg (not_or.mpr ⟨same,empty⟩)]
  right
  simp [copy,closed,opened]
  omega

lemma stepSegs (segs : Segs names) (clean : '/' ∉ n) : Segs (step names n) := by
  intro x mem
  rw [step] at mem
  split at mem
  · exact segs x (dropLast_subset names mem)
  split at mem
  · exact segs x mem
  rename_i other
  rcases mem_append.mp mem with mem | mem
  · exact segs x mem
  cases mem_singleton.mp mem
  exact ⟨fun empty => other (.inr empty),clean⟩

lemma normaliseSegs (segs : Segs names) (clean : ∀ n ∈ ps, '/' ∉ n) : Segs (normalise names ps) := by
  induction ps generalizing names with
  | nil => exact segs
  | cons n ps ih => exact ih (stepSegs segs (clean n (.head _))) fun n mem => clean n (.tail _ mem)

lemma walkClosed (segs : Segs names) (clean : ∀ n ∈ ps, '/' ∉ n) (more : ps ≠ []) :
    Shows (normalise names ps) (walk ps (closed names)) := by
  induction ps generalizing names with
  | nil => exact absurd rfl more
  | cons n ps ih => ?_
  have here := stepSegs segs (clean n (.head _))
  have shows_ := componentClosed segs n
  by_cases last : ps = []
  · rw [last]
    exact shows_
  rw [walkCons last,shows_.slash here]
  exact ih here (fun n mem => clean n (.tail _ mem)) last

lemma normaliseTake (names ps : List (List Char)) :
    normalise names ps = names.take (names.length - climb ps) ++ normalise [] ps := by
  induction ps generalizing names with
  | nil => simp [normalise,climb]
  | cons n ps ih => ?_
  have cons : ∀ names, normalise names (n::ps) = normalise (step names n) ps := fun _ => rfl
  rw [cons,cons,ih (step names n),ih (step [] n)]
  rw [climb,step,step]
  by_cases parent : n = dotdot
  · simp only [if_pos parent,dropLast_nil,take_nil,nil_append]
    rw [dropLast_eq_take,take_take,length_take]
    congr 2
    omega
  by_cases skip : n = dot ∨ n = []
  · simp only [if_neg parent,if_pos skip,take_nil,nil_append]
  simp only [if_neg parent,if_neg skip,nil_append,length_append,length_singleton]
  by_cases stays : climb ps = 0
  · rw [stays,Nat.zero_sub,Nat.sub_zero,Nat.sub_zero,Nat.sub_zero,take_length,take_of_length_le (by simp),
      take_of_length_le (by simp),append_assoc]
  rw [show 1 - climb ps = 0 by omega,take_zero,nil_append,take_append_of_le_length (by omega)]
  congr 2
  omega

lemma gluedIff (w n : List Char) (ps : List (List Char)) :
    normalise (front ++ [w ++ n]) ps = normalise (front ++ [w] ++ [n]) ps ↔ front.length + 1 < climb ps := by
  rw [normaliseTake (front ++ [w ++ n]),normaliseTake (front ++ [w] ++ [n]),append_left_inj]
  simp only [length_append,length_singleton]
  constructor
  · intro eq
    have lengths := congrArg length eq
    simp only [length_take,length_append,length_singleton] at lengths
    omega
  intro high
  rw [show front.length + 1 - climb ps = 0 by omega,show front.length + 1 + 1 - climb ps = 0 by omega]
  rfl

lemma flatDropLast (names : List (List Char)) : (flat '/' names.dropLast).length ≤ (flat '/' names).length := by
  by_cases none : names = []
  · subst none
    exact Nat.le_refl _
  obtain ⟨front,last,rfl⟩ := lastSplit none
  rw [dropLast_concat,flatAppend,length_append]
  omega

lemma Shows.length (shows_ : Shows names c) : c.full.length ≤ (flat '/' names).length + 1 := by
  rcases shows_ with rfl | ⟨-,rfl⟩
  · exact Nat.le_of_eq length_append
  · exact Nat.le_succ _

lemma stepLength (names : List (List Char)) (n : List Char) :
    (flat '/' (step names n)).length ≤ (flat '/' names).length + n.length + 1 ∧
      ((flat '/' (step names n)).length = (flat '/' names).length + n.length + 1 ↔ n ≠ [] ∧ n ≠ dot ∧ n ≠ dotdot) := by
  have less := flatDropLast names
  rw [step]
  by_cases parent : n = dotdot
  · rw [if_pos parent]
    have length : n.length = 2 := by rw [parent]; rfl
    simp only [parent,ne_eq,not_true_eq_false,and_false,iff_false]
    rw [← parent]
    omega
  rw [if_neg parent]
  by_cases skip : n = dot ∨ n = []
  · rw [if_pos skip]
    refine ⟨by omega,⟨by omega,?_⟩⟩
    rintro ⟨filled,other,-⟩
    exact absurd skip (not_or.mpr ⟨other,filled⟩)
  rw [if_neg skip]
  obtain ⟨other,filled⟩ := not_or.mp skip
  simp only [flatAppend,flatCons,flatNil,append_nil,length_append,length_cons]
  exact ⟨by omega,⟨fun _ => ⟨filled,other,parent⟩,fun _ => by omega⟩⟩

lemma walkLength (segs : Segs names) (clean : ∀ n ∈ ps, '/' ∉ n) (more : ps ≠ []) :
    (walk ps (closed names)).full.length ≤ (closed names).full.length + weight ps ∧
      ((walk ps (closed names)).full.length = (closed names).full.length + weight ps ↔ Tidy ps) := by
  have start : ∀ names, (closed names).full.length = (flat '/' names).length + 1 := fun names => length_append
  induction ps generalizing names with
  | nil => exact absurd rfl more
  | cons n ps ih => ?_
  have here := stepSegs segs (clean n (.head _))
  obtain ⟨high,exact_⟩ := stepLength names n
  by_cases last : ps = []
  · subst last
    rw [start]
    simp only [walk,weight,Tidy]
    by_cases parent : n = dotdot
    · have shows_ := upClosed segs
      have less := flatDropLast names
      have short := shows_.length
      have length : n.length = 2 := by rw [parent]; rfl
      rw [component,if_pos parent]
      simp only [parent,ne_eq,not_true_eq_false,and_false,iff_false]
      rw [← parent]
      omega
    rw [component,if_neg parent]
    by_cases same : n = dot
    · have length : n.length = 1 := by rw [same]; rfl
      rw [if_pos same,start]
      simp only [same,ne_eq,not_true_eq_false,false_and,iff_false]
      rw [← same]
      omega
    rw [if_neg same]
    simp only [copy,closed,length_append,length_singleton]
    exact ⟨Nat.le_refl _,fun _ => ⟨same,parent⟩,fun _ => trivial⟩
  have shows_ := componentClosed segs n
  obtain ⟨bound,tight⟩ := ih here (fun n mem => clean n (.tail _ mem)) last
  rw [walkCons last,shows_.slash here]
  rw [start] at bound tight ⊢
  obtain ⟨next,rest,rfl⟩ := exists_cons_of_ne_nil last
  simp only [weight,Tidy]
  refine ⟨by omega,?_⟩
  rw [← tight,← and_assoc,← and_assoc,and_assoc (a := n ≠ []),← exact_]
  omega

lemma splitOnClean (l : List Char) : ∀ n ∈ l.splitOn '/', '/' ∉ n := by
  intro n mem
  by_cases empty : n = []
  · rw [empty]
    exact not_mem_nil
  · exact (segmentsMem (mem_filter.mpr ⟨mem,by simpa using empty⟩)).2

lemma normaliseComponents (names : List (List Char)) (l : List Char) :
    normalise names (components l) = normalise names (l.splitOn '/') := by
  simp only [components,segments]
  generalize l.splitOn '/' = ps
  induction ps generalizing names with
  | nil => rfl
  | cons n ps ih => ?_
  by_cases empty : n = []
  · rw [filter_cons_of_neg (by simpa using empty),ih]
    simp [normalise,step,empty,dot,dotdot]
  rw [filter_cons_of_pos (by simpa using empty)]
  exact ih (step names n)

lemma normaliseNames (proper : ∀ n ∈ ps, Name n) : normalise names ps = names ++ ps := by
  induction ps generalizing names with
  | nil => simp [normalise]
  | cons n ps ih => ?_
  obtain ⟨⟨filled,-⟩,other,parent⟩ := proper n (.head _)
  have here : step names n = names ++ [n] := by rw [step,if_neg parent,if_neg (not_or.mpr ⟨other,filled⟩)]
  rw [normalise,foldl_cons,here]
  exact (ih fun n mem => proper n (.tail _ mem)).trans (by simp)

lemma normaliseAppend (names ps qs : List (List Char)) :
    normalise names (ps ++ qs) = normalise (normalise names ps) qs := foldl_append

structure Behind (wd : List Char) (names : List (List Char)) : Prop where
  more : names ≠ []
  proper : ∀ n ∈ names, Name n
  same : wd = flat '/' names

lemma Behind.segs (behind : Behind wd names) : Segs names := fun n mem => (behind.proper n mem).1

lemma Behind.components (behind : Behind wd names) : components wd = names := by
  rw [behind.same]
  exact segmentsFlat behind.segs

lemma Behind.long (behind : Behind wd names) : 1 < wd.length := by
  obtain ⟨n,rest,rfl⟩ := exists_cons_of_ne_nil behind.more
  have filled := length_pos_iff.mpr (behind.proper n (.head _)).1.1
  rw [behind.same,flatCons,length_cons,length_append]
  omega

lemma Normal.cases_ (normal : Normal wd) : wd = ['/'] ∨ ∃ names, Behind wd names :=
  normal.imp_right fun ⟨names,more,proper,same⟩ => ⟨names,more,proper,same⟩

lemma Normal.length (normal : Normal wd) : 0 < wd.length := by
  rcases normal.cases_ with rfl | ⟨names,behind⟩
  · decide
  · exact Nat.lt_trans Nat.zero_lt_one behind.long

lemma pathConvEq (normal : Normal wd) (done : pathConv wd path = some full) : wd.length + path.length < pathMax ∧
      full = (if path.head? = some '/' then walk (path.tail.splitOn '/') (closed []) else
        walk (path.splitOn '/') (if wd.length > 1 ∧ path.head? ≠ some '.' then ⟨wd ++ ['/'],wd.length + 1⟩ else ⟨wd,wd.length⟩)).full := by
  have positive := normal.length
  have short : path.length ≤ pathMax - 1 := by
    by_contra long
    have cut : (path.take (pathMax - 1)).length = pathMax - 1 := length_take_of_le (by omega)
    simp only [pathConv,cut] at done
    rw [if_neg (by decide),if_pos (by simp only [pathMax]; omega)] at done
    cases done
  have whole := take_of_length_le short
  simp only [pathConv,whole] at done
  obtain ⟨-,done⟩ := ite_none_left_eq_some.mp done
  obtain ⟨room,done⟩ := ite_none_left_eq_some.mp done
  have room := Nat.lt_of_not_le room
  refine ⟨room,?_⟩
  split at done
  next absolute =>
    rw [if_pos absolute]
    obtain ⟨rest,rfl⟩ := head?_eq_some_iff.mp absolute
    rw [length_cons,tail_cons,convLoopWalk (Nat.lt_succ_self _)] at done
    exact (some.inj done).symm
  rename_i relative
  have same : wd.take (pathMax - 1) = wd := take_of_length_le (by omega)
  rw [convLoopWalk (Nat.lt_succ_self _),begins,same] at done
  rw [if_neg relative]
  exact (some.inj done).symm

lemma closedConverted (segs : Segs names) (l : List Char) :
    components (walk (l.splitOn '/') (closed names)).full = normalise names (components l) ∧
      (walk (l.splitOn '/') (closed names)).full.head? = some '/' := by
  have shows_ := walkClosed segs (splitOnClean l) (splitOn_ne_nil '/' l)
  rw [normaliseComponents]
  exact ⟨shows_.components (normaliseSegs segs (splitOnClean l)),shows_.absolute⟩

lemma openedFirst (behind : Behind wd names) (clean : '/' ∉ n) :
    (n = dot ∨ n = dotdot) ∧ Shows (step names n) ((opened names).component n) ∨
      (n ≠ dot ∧ n ≠ dotdot) ∧ ∃ front w, names = front ++ [w] ∧ Segment '/' (w ++ n) ∧
        (opened names).component n = opened (front ++ [w ++ n]) := by
  rw [component,step]
  by_cases parent : n = dotdot
  · rw [if_pos parent,if_pos parent]
    exact .inl ⟨.inr parent,upOpened behind.more behind.segs⟩
  rw [if_neg parent,if_neg parent]
  by_cases same : n = dot
  · rw [if_pos same,if_pos (.inl same)]
    exact .inl ⟨.inl same,.inr ⟨behind.more,rfl⟩⟩
  rw [if_neg same]
  refine .inr ⟨⟨same,parent⟩,names.dropLast,names.getLast behind.more,(dropLast_concat_getLast behind.more).symm,?_,?_⟩
  · obtain ⟨filled,out⟩ := behind.segs _ (getLast_mem behind.more)
    refine ⟨fun empty => filled (append_eq_nil_iff.mp empty).1,fun mem => ?_⟩
    exact (mem_append.mp mem).elim out clean
  conv_lhs => rw [← dropLast_concat_getLast behind.more]
  simp [copy,opened]
  omega

lemma walkShows {result : List (List Char)} (room : Nat) (shows_ : Shows result (c.component n)) (segs : Segs result)
    (clean : ∀ n ∈ rest, '/' ∉ n) (fits : (c.component n).full.length ≤ room + n.length)
    (flatFits : (flat '/' result).length ≤ room + n.length) :
    Shows (normalise result rest) (walk (n::rest) c) ∧ Segs (normalise result rest) ∧
      (walk (n::rest) c).full.length ≤ room + weight (n::rest) := by
  by_cases last : rest = []
  · subst last
    exact ⟨shows_,segs,fits⟩
  rw [walkCons last,shows_.slash segs]
  refine ⟨walkClosed segs clean last,normaliseSegs segs clean,?_⟩
  have bound := (walkLength segs clean last).1
  obtain ⟨next,more,rfl⟩ := exists_cons_of_ne_nil last
  have start : (closed result).full.length = (flat '/' result).length + 1 := length_append
  simp only [weight] at bound ⊢
  omega

lemma openedWalk (behind : Behind wd names) (dotted : first.head? = some '.') (clean : ∀ n ∈ first::rest, '/' ∉ n) :
    ∃ result, Shows result (walk (first::rest) (opened names)) ∧ Segs result ∧
      (result = normalise names (first::rest) ↔ first = dot ∨ first = dotdot ∨ names.length < climb rest) ∧
      (walk (first::rest) (opened names)).full.length ≤ wd.length + weight (first::rest) := by
  have here := clean first (.head _)
  have later : ∀ n ∈ rest, '/' ∉ n := fun n mem => clean n (.tail _ mem)
  have filled : first ≠ [] := by
    rintro rfl
    cases dotted
  have positive := length_pos_iff.mpr filled
  rcases openedFirst behind here with ⟨special,shows_⟩ | ⟨⟨other,parent⟩,front,w,rfl,segment,eq⟩
  · have less : (flat '/' (step names first)).length ≤ wd.length := by
      rw [behind.same]
      rcases special with same | parent
      · have stays : step names first = names := by rw [step,if_neg (by rw [same]; decide),if_pos (.inl same)]
        exact Nat.le_of_eq (congrArg (fun n => (flat '/' n).length) stays)
      rw [step,if_pos parent]
      exact flatDropLast names
    have short := shows_.length
    obtain ⟨shown,segs,length⟩ := walkShows wd.length shows_ (stepSegs behind.segs here) later (by omega) (by omega)
    exact ⟨_,shown,segs,⟨fun _ => special.imp_right .inl,fun _ => rfl⟩,length⟩
  have segs : Segs (front ++ [w ++ first]) := by
    intro n mem
    rcases mem_append.mp mem with mem | mem
    · exact behind.segs n (mem_append_left _ mem)
    cases mem_singleton.mp mem
    exact segment
  have written : (flat '/' (front ++ [w ++ first])).length = wd.length + first.length := by
    rw [behind.same]
    simp only [flatAppend,flatCons,flatNil,append_nil,length_append,length_cons]
    omega
  have shows_ : Shows (front ++ [w ++ first]) ((opened (front ++ [w])).component first) := .inr ⟨by simp,eq⟩
  obtain ⟨shown,segs,length⟩ := walkShows wd.length shows_ segs later (by rw [eq]; exact Nat.le_of_eq written)
    (Nat.le_of_eq written)
  refine ⟨_,shown,segs,?_,length⟩
  have unglued : normalise (front ++ [w]) (first::rest) = normalise (front ++ [w] ++ [first]) rest := by
    rw [normalise,foldl_cons,step,if_neg parent,if_neg (not_or.mpr ⟨other,filled⟩)]
    rfl
  rw [unglued,gluedIff,length_append,length_singleton]
  exact ⟨fun high => .inr (.inr high),fun cases_ => (cases_.resolve_left other).resolve_left parent⟩

lemma pieceHead (relative : path.head? ≠ some '/') (pieces : path.splitOn '/' = first::rest) :
    first.head? = path.head? := by
  rw [splitOnCut] at pieces
  rw [← (cons.inj pieces).1]
  cases path with
  | nil => rfl
  | cons c l =>
    have differ : c ≠ '/' := fun same => relative (by rw [same]; rfl)
    simp [differ]

theorem pathConverted (normal : Normal wd) (done : pathConv wd path = some full) : Converted wd path full ↔ Fits wd path := by
  obtain ⟨room,rfl⟩ := pathConvEq normal done
  have empty : Segs [] := nofun
  have bound : ∀ l : List Char, (walk (l.splitOn '/') (closed [])).full.length ≤ 1 + l.length := by
    intro l
    have high := (walkLength empty (splitOnClean l) (splitOn_ne_nil '/' l)).1
    rwa [weightSplitOn] at high
  have positive := normal.length
  by_cases absolute : path.head? = some '/'
  · refine ⟨fun _ => .inl absolute,fun _ => ?_⟩
    rw [if_pos absolute]
    obtain ⟨rest,rfl⟩ := head?_eq_some_iff.mp absolute
    obtain ⟨names,head⟩ := closedConverted empty rest
    have high := bound rest
    refine ⟨?_,head,?_⟩
    · rw [if_pos absolute,show components ('/'::rest) = components rest from segmentsSep '/' rest]
      exact names
    rw [length_cons] at room
    simp only [tail_cons]
    omega
  rw [if_neg absolute]
  rcases normal.cases_ with rfl | ⟨names,behind⟩
  · refine ⟨fun _ => .inr (.inl rfl),fun _ => ?_⟩
    rw [if_neg (by simp)]
    obtain ⟨names,head⟩ := closedConverted empty path
    have high := bound path
    refine ⟨?_,head,?_⟩
    · rw [if_neg absolute]
      exact names
    have start : (⟨['/'],['/'].length⟩ : Cursor) = closed [] := rfl
    rw [start]
    simp only [length_singleton] at room
    omega
  have long := behind.long
  have wanted : normalise [] (components wd ++ components path) = normalise names (path.splitOn '/') := by
    rw [behind.components,normaliseAppend,normaliseNames behind.proper,nil_append,normaliseComponents]
  have other : wd ≠ ['/'] := by
    rintro rfl
    cases long
    contradiction
  obtain ⟨first,rest,pieces⟩ := exists_cons_of_ne_nil (splitOn_ne_nil '/' path)
  have first_ := pieceHead absolute pieces
  simp only [Fits,absolute,other,false_or,pieces]
  by_cases dotted : path.head? = some '.'
  · rw [if_neg (by simp [dotted]),if_pos (first_.trans dotted),behind.components]
    have start : (⟨wd,wd.length⟩ : Cursor) = opened names := by rw [behind.same]; rfl
    have clean := splitOnClean path
    have weighs := weightSplitOn '/' path
    rw [pieces] at clean weighs wanted
    obtain ⟨result,shown,segs,glued,length⟩ := openedWalk behind (first_.trans dotted) clean
    rw [start,← glued]
    constructor
    · intro converted
      rw [← shown.components segs,converted.names,if_neg absolute,wanted]
    intro same
    refine ⟨?_,shown.absolute,by omega⟩
    rw [shown.components segs,if_neg absolute,wanted,same]
  rw [if_pos ⟨long,dotted⟩,if_neg (fun eq => dotted (first_.symm.trans eq))]
  have start : (⟨wd ++ ['/'],wd.length + 1⟩ : Cursor) = closed names := by rw [behind.same]; rfl
  obtain ⟨shown,head⟩ := closedConverted behind.segs path
  obtain ⟨high,tight⟩ := walkLength behind.segs (splitOnClean path) (splitOn_ne_nil '/' path)
  have length : (closed names).full.length = wd.length + 1 := by
    rw [behind.same]
    exact length_append
  rw [weightSplitOn,length] at high tight
  rw [pieces] at shown head high tight wanted
  rw [start,← tight]
  constructor
  · intro converted
    have fits := converted.room
    omega
  intro fits
  refine ⟨?_,head,by omega⟩
  rw [shown,if_neg absolute,wanted,normaliseComponents,pieces]

abbrev chars (s : String) : List Char := s.toList

theorem pathConvertedParent : pathConv (chars "/a/b") (chars "../.c//./d") = some (chars "/a/.c/d") ∧
    Converted (chars "/a/b") (chars "../.c//./d") (chars "/a/.c/d") := by
  have done : pathConv (chars "/a/b") (chars "../.c//./d") = some (chars "/a/.c/d") := rfl
  have normal : Normal (chars "/a/b") := .inr ⟨[['a'],['b']],by decide,by decide,rfl⟩
  exact ⟨done,(pathConverted normal done).mpr (by decide)⟩

lemma repeatedNormal (long : 2 < k) : Normal ('/'::replicate k 'a') := by
  refine .inr ⟨[replicate k 'a'],by simp,fun n mem => ?_,by simp⟩
  cases mem_singleton.mp mem
  have length : ∀ n : List Char, n.length ≤ 2 → replicate k 'a' ≠ n := by
    rintro n short rfl
    rw [length_replicate] at short
    omega
  refine ⟨⟨length [] (by decide),fun mem => ?_⟩,length dot (by decide),length dotdot (by decide)⟩
  exact absurd (eq_of_mem_replicate mem) (by decide)

def longDirectory : List Char := '/'::List.replicate 4093 'a'

theorem pathNotConverted : (Normal (chars "/a") ∧ pathConv (chars "/a") (chars ".b") = some (chars "/a.b") ∧
      ¬ Converted (chars "/a") (chars ".b") (chars "/a.b")) ∧
    Normal longDirectory ∧ (pathConv longDirectory ['b']).map length = some pathMax := by
  refine ⟨⟨.inr ⟨[['a']],by decide,by decide,rfl⟩,by decide +kernel,fun converted => ?_⟩,?_,by decide +kernel⟩
  · have names := converted.names
    revert names
    decide
  · exact repeatedNormal (by decide)

end OsvKernel.PathConv
