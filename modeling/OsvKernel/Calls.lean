import OsvKernel.Threads

/-! Threads that are in calls: each has a stack of frames. A busy frame may make further calls, so every frame
but the top one is busy. The top frame may carry a reference that its thread owns. -/
namespace OsvKernel.Calls
open List Function

structure Kind (X R : Type) where
  busy : X → Bool
  carried : X → Option R
  free : ∀ x, busy x = true → carried x = none

section
variable {X R T : Type} (k : Kind X R)

def Kind.ready : List X → Bool
  | [] => true
  | x::_ => k.busy x

def Kind.Carries (own : R → Nat) : List X → Prop
  | [] => True
  | x::rest => (∀ r ∈ k.carried x, 0 < own r) ∧ ∀ y ∈ rest, k.busy y = true

def Kind.Over (rest stack : List X) : Prop := stack = rest ∨ ∃ x, stack = x::rest ∧ k.busy x = false

def Kind.Tops (own : R → Nat) (rest stack : List X) : Prop :=
  stack = rest ∨ ∃ x, stack = x::rest ∧ k.busy x = false ∧ ∀ r ∈ k.carried x, 0 < own r

variable {k} {rest stack : List X} {x : X} {own own' : R → Nat}

lemma Kind.Tops.over (tops : k.Tops own rest stack) : k.Over rest stack := by
  rcases tops with same | ⟨x,here,idle,_⟩
  · exact .inl same
  · exact .inr ⟨x,here,idle⟩

lemma Kind.Tops.mono {j : Kind X R} (tops : j.Tops own rest stack) (more : ∀ x, k.busy x = true → j.busy x = true)
    (same : k.carried = j.carried) : k.Tops own rest stack := by
  rcases tops with rfl | ⟨x,here,idle,carried⟩
  · exact .inl rfl
  refine .inr ⟨x,here,?_,same ▸ carried⟩
  exact Bool.eq_false_iff.mpr fun busy => nomatch (more x busy).symm.trans idle

lemma Kind.carriesBusy (busy : ∀ y ∈ rest, k.busy y = true) : k.Carries own rest := by
  rcases rest with _ | ⟨x,rest⟩
  · trivial
  refine ⟨fun r carried => ?_,fun y mem => busy y (mem_cons_of_mem _ mem)⟩
  rw [k.free x (busy x mem_cons_self)] at carried
  cases carried

lemma Kind.Tops.carries (tops : k.Tops own rest stack) (busy : ∀ y ∈ rest, k.busy y = true) : k.Carries own stack := by
  rcases tops with rfl | ⟨x,rfl,_,carried⟩
  · exact Kind.carriesBusy busy
  · exact ⟨carried,busy⟩

lemma Kind.Carries.busy (carries : k.Carries own stack) (free : k.ready stack = true) : ∀ y ∈ stack, k.busy y = true := by
  rcases stack with _ | ⟨x,rest⟩
  · exact nofun
  intro y mem
  rcases mem_cons.mp mem with rfl | mem
  · exact free
  · exact carries.2 y mem

lemma Kind.Carries.grow (carries : k.Carries own stack) (more : ∀ r, own r ≤ own' r) : k.Carries own' stack := by
  cases stack with
  | nil => trivial
  | cons x rest => exact ⟨fun r carried => Nat.lt_of_lt_of_le (carries.1 r carried) (more r),carries.2⟩

lemma Kind.Over.count {p : X → Bool} (above : k.Over rest stack) (only : ∀ x, p x = true → k.busy x = true) :
    stack.countP p = rest.countP p := by
  rcases above with rfl | ⟨x,rfl,idle⟩
  · rfl
  refine countP_cons_of_neg fun mine => ?_
  cases (only x mine).symm.trans idle

variable [Fintype T] [DecidableEq T]

lemma totalStack (calls : T → List X) (t : T) (stack : List X) (p : X → Bool) :
    total (fun v => (update calls t stack v).countP p) + (calls t).countP p =
      total (fun v => (calls v).countP p) + stack.countP p := by
  have move := @totalMove T _ (fun v => (calls v).countP p) (fun v => (update calls t stack v).countP p) t _
    fun v ne => by rw [update_of_ne ne]
  rwa [update_self] at move

variable [DecidableEq R]

lemma totalRefer (own : T → R → Nat) (t : T) (r q : R) (n : Nat) :
    total (fun v => update own t (update (own t) r n) v q) + (if q = r then own t r else 0) =
      total (fun v => own v q) + if q = r then n else 0 := by
  have move := @totalMove T _ (fun v => own v q) (fun v => update own t (update (own t) r n) v q) t _
    fun v ne => by rw [update_of_ne ne]
  rw [update_self,update_apply] at move
  split at move
  next same =>
    subst same
    simpa only [if_true] using move
  next other =>
    simp only [if_neg other]
    omega

end
end OsvKernel.Calls
