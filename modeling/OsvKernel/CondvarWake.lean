import OsvKernel.Fifo

/-! The loops of condvar::wake_all (core/condvar.cc) on the list it took. sent holds the records that send_lock() got;
their threads may reuse them at once, so whoever touches one of them afterwards fails. -/
namespace OsvKernel.CondvarWake
open List Function Chains Option

structure Records (R : Type) where
  next : R → Option R
  sent : List R

section
variable {R C : Type} [DecidableEq R] [DecidableEq C]

def Records.read (s : Records R) (r : R) : Option (Option R) := if r ∈ s.sent then none else some (s.next r)

def Records.write (s : Records R) (r : R) (value : Option R) : Option (Records R) :=
  if r ∈ s.sent then none else some {s with next := update s.next r value}

def Records.sendLock (s : Records R) (r : R) : Option (Records R) :=
  if r ∈ s.sent then none else some {s with sent := r::s.sent}

variable (tcpu : R → C)

-- The loop over r.
def sendSame (cpuWr : C) : Nat → Records R → Option R → Option R → Option R → Option (Records R × Option R)
  | 0,_,_,_,_ => none
  | _+1,s,nextWr,_,none => some (s,nextWr)
  | n+1,s,nextWr,prevr,some r =>
    (s.read r).bind fun nextr =>
      if tcpu r = cpuWr then
        (s.sendLock r).bind fun s =>
          if nextWr = some r then sendSame cpuWr n s nextr prevr nextr
          else prevr.bind fun p => (s.write p nextr).bind fun s => sendSame cpuWr n s nextWr prevr nextr
      else sendSame cpuWr n s nextWr (some r) nextr

def wakeAll : Nat → Records R → Option R → Option (Records R)
  | 0,_,_ => none
  | _+1,s,none => some s
  | n+1,s,some wr =>
    (s.read wr).bind fun nextWr =>
      (s.sendLock wr).bind fun s =>
        (sendSame tcpu (tcpu wr) (n + 1) s nextWr none nextWr).bind fun (s,nextWr) => wakeAll n s nextWr

variable {tcpu} {s s' : Records R} {head : Option R} {l left kept rest : List R} {r : R} {n : Nat}

structure Sends (s s' : Records R) (head : Option R) (l left : List R) : Prop where
  linked : Linked s'.next head left
  sent : ∃ more, s'.sent = more ++ s.sent ∧ (more ++ left).Perm l

omit [DecidableEq R] in
lemma Sends.before {next : R → Option R} (sends : Sends ⟨next,r::s.sent⟩ s' head l left) : Sends s s' head (r::l) left := by
  obtain ⟨linked,more,sent,perm⟩ := sends
  refine ⟨linked,more ++ [r],by simp [sent],?_⟩
  rw [append_assoc]
  exact perm_middle.trans (perm.cons r)

lemma sendSameSends {cpuWr : C} {nextWr : Option R} (linked : Linked s.next nextWr (kept ++ rest))
    (nodup : (kept ++ rest).Nodup) (fresh : ∀ x ∈ kept ++ rest, x ∉ s.sent) (enough : rest.length < n) :
    ∃ s' head left, sendSame tcpu cpuWr n s nextWr kept.getLast? rest.head? = some (s',head) ∧
      Sends s s' head (kept ++ rest) left := by
  induction n generalizing s kept rest nextWr with
  | zero => exact absurd enough (Nat.not_lt_zero _)
  | succ n ih => ?_
  rcases rest with _ | ⟨r,rest⟩
  · exact ⟨s,nextWr,kept,rfl,by simpa using linked,[],rfl,by simp⟩
  have enough := Nat.lt_of_succ_lt_succ enough
  have behind := linked.after.headEq
  obtain ⟨off,apart⟩ := nodup_cons.mp (nodup_middle.mp nodup)
  have known : ∀ x ∈ kept ++ rest, x ∉ r::s.sent := fun x mem there =>
    (mem_cons.mp there).elim (fun same => off (same ▸ mem)) (fresh x (perm_middle.mem_iff.mpr (.tail r mem)))
  have unsent := fresh r (by simp)
  rw [head?_cons,sendSame,Records.read,if_neg unsent,bind_some,behind]
  by_cases here : tcpu r = cpuWr
  swap
  · rw [if_neg here]
    obtain ⟨s',head,left,done,sends⟩ := @ih s (kept ++ [r]) rest nextWr (by simpa using linked) (by simpa using nodup)
      (by simpa using fresh) enough
    rw [getLast?_concat] at done
    exact ⟨s',head,left,done,by simpa using sends⟩
  rw [if_pos here,Records.sendLock,if_neg unsent,bind_some]
  -- next_wr is r itself exactly if the loop has kept nothing
  rcases eq_nil_or_concat kept with rfl | ⟨pre,p,rfl⟩
  · rw [if_pos (show nextWr = some r from linked.headEq)]
    obtain ⟨s',head,left,done,sends⟩ := @ih {s with sent := r::s.sent} [] rest _ (behind ▸ linked.after)
      apart known enough
    exact ⟨s',head,left,done,sends.before⟩
  rw [concat_eq_append] at linked nodup off apart known ⊢
  have other : nextWr ≠ some r := by
    rw [linked.headEq]
    intro same
    refine off (mem_append_left _ (mem_of_mem_head? ?_))
    simpa using same
  have unsent' := known p (by simp)
  rw [if_neg other,getLast?_concat,bind_some,Records.write,if_neg unsent',bind_some]
  have cut : Linked (update s.next p rest.head?) nextWr (pre ++ [p] ++ rest) := by
    rw [append_assoc] at linked nodup ⊢
    exact behind ▸ linked.cut nodup
  obtain ⟨s',head,left,done,sends⟩ := @ih ⟨_,r::s.sent⟩ (pre ++ [p]) rest nextWr cut apart known enough
  rw [getLast?_concat] at done
  obtain ⟨linked',more,sent,perm⟩ := sends.before
  exact ⟨s',head,left,done,linked',more,sent,perm.trans perm_middle.symm⟩

lemma wakeAllSends (linked : Linked s.next head l) (nodup : l.Nodup) (fresh : ∀ x ∈ l, x ∉ s.sent) (enough : l.length < n) :
    ∃ s' order, wakeAll tcpu n s head = some s' ∧ s'.sent = order ++ s.sent ∧ order.Perm l := by
  induction n generalizing s head l with
  | zero => exact absurd enough (Nat.not_lt_zero _)
  | succ n ih => ?_
  cases linked with
  | nil => exact ⟨s,[],rfl,rfl,.nil⟩
  | @cons wr rest behind => ?_
  obtain ⟨off,apart⟩ := nodup_cons.mp nodup
  have unsent := fresh wr (.head _)
  have known : ∀ x ∈ rest, x ∉ wr::s.sent := fun x mem there =>
    (mem_cons.mp there).elim (fun same => off (same ▸ mem)) (fresh x (.tail wr mem))
  obtain ⟨s',head,left,done,linked,more,sent,perm⟩ := @sendSameSends R C _ _ tcpu {s with sent := wr::s.sent} [] rest
    (n + 1) (tcpu wr) (s.next wr) behind apart known (Nat.lt_of_succ_lt enough)
  have apart' := nodup_append.mp (perm.nodup_iff.mpr apart)
  have fresh' : ∀ x ∈ left, x ∉ s'.sent := by
    intro x mem there
    rcases mem_append.mp (sent ▸ there) with early | before
    · exact apart'.2.2 x early x mem rfl
    · exact known x (perm.mem_iff.mp (mem_append_right _ mem)) before
  have shorter : more.length + left.length = rest.length := by simpa using perm.length_eq
  obtain ⟨last,order,ended,sent',perm'⟩ := @ih s' head left linked apart'.2.1 fresh' (by simp at enough; omega)
  refine ⟨last,order ++ (more ++ [wr]),?_,by simp [sent',sent],?_⟩
  · have first := behind.headEq
    rw [wakeAll,Records.read,if_neg unsent,bind_some,Records.sendLock,if_neg unsent,bind_some]
    rw [getLast?_nil,← first] at done
    rw [done]
    exact ended
  have all := perm_append_comm.trans ((perm'.append_left more).trans perm)
  rw [← append_assoc]
  exact (perm_append_singleton wr _).trans (all.cons wr)

theorem wakeAllOnce {next : R → Option R} {wr : Option R} {waiters : List R} (linked : Linked next wr waiters)
    (nodup : waiters.Nodup) (tcpu : R → C) {n : Nat} (enough : waiters.length < n) :
    ∃ s, wakeAll tcpu n ⟨next,[]⟩ wr = some s ∧ s.sent.Perm waiters := by
  obtain ⟨s,order,done,sent,perm⟩ := @wakeAllSends R C _ _ tcpu ⟨next,[]⟩ wr waiters n linked nodup (by simp) enough
  exact ⟨s,done,by simpa [sent] using perm⟩

end

def three : Fin 3 → Option (Fin 3)
  | 0 => some 1
  | 1 => some 2
  | 2 => none

theorem wakeAllOnceThree : ∃ s, wakeAll (fun r => r.val % 2) 4 ⟨three,[]⟩ (some 0) = some s ∧ s.sent.Perm [0,1,2] :=
  wakeAllOnce (show Linked three (some 0) [0,1,2] from .cons (.cons (.cons .nil))) (by decide) _ (by decide)

end OsvKernel.CondvarWake
