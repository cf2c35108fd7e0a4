import Xv6.Intr.Inv

/-!
# Every step keeps the invariant of interrupt nesting

One lemma for each kind of step.  Steps that do not switch threads are brought into the form
`Sys.become`, so that only the CPU that takes the step has to be looked at; the two sides of `swtch`
exchange the thread of a CPU and are treated on their own.
-/

namespace Xv6.Intr

open Function Option

section

variable {s s' : Sys} {c : ℕ} {x : Thread} {h : Hart} {q q' : Pos} {o : List Bool} {v : Bool}
  {t : Option ℕ}

/-! ## Positions -/

lemma Pos.Calm.plain (hq : q.Calm) : q.Plain := by
  cases q with
  | call f st sie ret =>
    cases st with
    | locked p => exact absurd trivial hq.1
    | sched p => exact absurd trivial hq.1
    | _ => trivial
  | test | swtch | resumed => exact hq.elim
  | _ => trivial

lemma Pos.Calm.not_inside (hq : q.Calm) : ¬q.Inside := by
  cases q with
  | call f st sie ret => exact hq.1
  | code | pop | intrOn | intrOff => exact id
  | _ => exact hq.elim

lemma Pos.Calm.recorded (hq : q.Calm) : q.Recorded true [] := by
  cases q with
  | call f st sie ret => exact ⟨fun h => absurd h hq.1, fun _ => hq.2⟩
  | _ => trivial

lemma Pos.Calm.saved (hq : q.Calm) (w : Bool) : q.Saved w := by
  cases q with
  | call f st sie ret =>
    cases st with
    | back p i => exact absurd trivial hq.1
    | _ => trivial
  | _ => trivial

lemma Pos.Calm.shape (hq : q.Calm) (v : Bool) : q.SchedShape v [] := by
  cases q with
  | intrOn | intrOff => rfl
  | scan | spinProc | test | swtch | resumed | unlock | popProc => exact hq.elim
  | _ => trivial

/-- Where interrupts are enabled, one may strike. -/
lemma Local.calm (hl : Local t h q []) (hs : h.sie = true) (hshape : t = none → q.SchedShape true []) :
    q.Calm := by
  have hok := hl.ok
  rw [hs] at hok
  have hin : ¬q.Inside := fun h => hl.inside h rfl
  cases q with
  | code | pop | intrOn | intrOff => trivial
  | handler ret => exact absurd hok.1 Bool.noConfusion
  | call f st sie ret => exact ⟨hin, (hl.recorded.2 hin).trans hs⟩
  | scan => exact absurd (hshape hok).2 Bool.noConfusion
  | _ => exact absurd trivial hin

/-- What the invariant asks of a thread at `q` never fails. -/
structure Pos.Free (q : Pos) : Prop where
  plain : q.Plain
  not_inside : ¬q.Inside
  settled : q.Settled
  recorded (v : Bool) (o : List Bool) : q.Recorded v o
  saved (w : Bool) : q.Saved w
  shape (v : Bool) (o : List Bool) : q.SchedShape v o

lemma Pos.free_of_atCode (hq : q.atCode) : q.Free := by
  cases q with
  | code | handler =>
    exact ⟨trivial, id, trivial, fun _ _ => trivial, fun _ => trivial, fun _ _ => trivial⟩
  | _ => exact absurd hq Bool.false_ne_true

/-- A thread goes to a position of this kind. -/
lemma Local.free {q₀ : Pos} (hl : Local t h q₀ o) (hq : q.Free) (hok : q.Ok t (outer h.sie o))
    (hset : q₀.Settled) : Local t h q o :=
  hl.move hok (hq.recorded _ _) (fun _ => hset) (hq.saved _) fun h => absurd h hq.not_inside

/-! ## States as `Sys.become` -/

lemma setPos_eq (s : Sys) (c : ℕ) (x : Thread) (q : Pos) :
    s.setPos x q = s.become c x (s.hart c) q (s.pushed x) s.lock s.proc := by
  rw [Sys.become, update_eq_self, update_eq_self]
  rfl

lemma setHart_setPos_eq (s : Sys) (c : ℕ) (x : Thread) (h : Hart) (q : Pos) :
    (s.setHart c h).setPos x q = s.become c x h q (s.pushed x) s.lock s.proc := by
  rw [Sys.become, update_eq_self]
  rfl

lemma setHart_eq (s : Sys) (c : ℕ) (x : Thread) (h : Hart) :
    s.setHart c h = s.become c x h (s.pos x) (s.pushed x) s.lock s.proc := by
  rw [Sys.become, update_eq_self, update_eq_self]
  rfl

lemma setLock_setPos_eq (s : Sys) (c : ℕ) (x : Thread) (k : Spinlock) (o : Option ℕ) (q : Pos) :
    (s.setLock k o).setPos x q =
      s.become c x (s.hart c) q (s.pushed x) (update s.lock k o) s.proc := by
  rw [Sys.become, update_eq_self, update_eq_self]
  rfl

lemma setHart_setLock_setPos_eq (s : Sys) (c : ℕ) (x : Thread) (h : Hart) (k : Spinlock)
    (o : Option ℕ) (q : Pos) : ((s.setHart c h).setLock k o).setPos x q =
      s.become c x h q (s.pushed x) (update s.lock k o) s.proc := by
  rw [Sys.become, update_eq_self]
  rfl

lemma setProc_setHart_setPos_eq (s : Sys) (c : ℕ) (x : Thread) (j : ℕ) (p : Proc) (h : Hart)
    (q : Pos) : ((s.setProc j p).setHart c h).setPos x q =
      s.become c x h q (s.pushed x) s.lock (update s.proc j p) := by
  rw [Sys.become, update_eq_self]
  rfl

lemma setProc_setPos_eq (s : Sys) (c : ℕ) (x : Thread) (j : ℕ) (p : Proc) (q : Pos) :
    (s.setProc j p).setPos x q =
      s.become c x (s.hart c) q (s.pushed x) s.lock (update s.proc j p) := by
  rw [Sys.become, update_eq_self, update_eq_self]
  rfl

lemma setProc_eq (s : Sys) (c : ℕ) (x : Thread) (j : ℕ) (p : Proc) :
    s.setProc j p =
      s.become c x (s.hart c) (s.pos x) (s.pushed x) s.lock (update s.proc j p) := by
  rw [Sys.become, update_eq_self, update_eq_self, update_eq_self]
  rfl

lemma Keeps.refl (s : Sys) (c : ℕ) (x : Thread) : Keeps s c x s.lock s.proc :=
  ⟨fun _ _ _ h => h, fun _ _ h => h, fun _ _ _ _ => rfl⟩

lemma Keeps.acquire {k : Spinlock} (hk : s.lock k = none) (x : Thread) :
    Keeps s c x (update s.lock k (some c)) s.proc := by
  refine ⟨fun j c' _ hj => ?_, fun _ _ h => h, fun _ _ _ _ => rfl⟩
  have hne : j ≠ k := by
    rintro rfl
    rw [hk] at hj
    cases hj
  rw [update_of_ne hne]
  exact hj

lemma Keeps.release {k : Spinlock} (hk : s.lock k = some c) (x : Thread) :
    Keeps s c x (update s.lock k none) s.proc := by
  refine ⟨fun j c' hc hj => ?_, fun _ _ h => h, fun _ _ _ _ => rfl⟩
  have hne : j ≠ k := by
    rintro rfl
    exact hc (some.inj (hj.symm.trans hk))
  rw [update_of_ne hne]
  exact hj

/-- A store into a slot whose lock is held. -/
lemma Keeps.store {j : ℕ} {p : Proc} (hj : s.lock (.proc j) = some c)
    (hp : .proc j ≠ x → (s.proc j).state = .running → p.state = .running) :
    Keeps s c x s.lock (update s.proc j p) := by
  refine ⟨fun _ _ _ h => h, fun t hx ht => ?_, fun t c' hc ht => ?_⟩
  · by_cases htj : t = j
    · subst htj
      rw [update_self]
      exact hp hx ht
    · rw [update_of_ne htj]
      exact ht
  · have hne : t ≠ j := by
      rintro rfl
      exact hc (some.inj (ht.symm.trans hj))
    exact update_of_ne hne _ _

lemma Store.running (u : Store) {p : Proc} (hp : p.state = .running) :
    (u.apply p).state = .running := by
  cases u with
  | prepare chan => exact hp
  | wakeup chan => exact Proc.wakeup_running hp
  | kkill =>
    change (if p.state = .sleeping then .runnable else p.state) = ProcState.running
    rw [hp]
    rfl

lemma Inv.panic (hI : Inv s) (msg : String) : Inv (s.panic msg) where
  loc := hI.loc
  shared c := by
    have hsh := hI.shared c
    change Shared _ c (s.cur c)
    cases hcur : s.cur c with
    | proc t =>
      rw [hcur] at hsh
      exact ⟨hsh.proc, hsh.state, hsh.holds, hsh.resumed, hsh.pushed⟩
    | sched d =>
      rw [hcur] at hsh
      exact ⟨hsh.1, hsh.2.shape, hsh.2.proc, hsh.2.test, hsh.2.swtch⟩
  unique := hI.unique
  suspended := hI.suspended

/-! ## Steps of code -/

section

variable (hI : Inv s) (hx : s.cur c = x)
include hI hx

lemma Inv.loc_cur (hpos : s.pos x = q) : Local x.owner (s.hart c) q (s.pushed x) :=
  hpos ▸ hx ▸ hI.loc c

/-- A thread without a process is the scheduler of this CPU. -/
lemma Inv.eq_sched (hown : x.owner = none) : x = .sched c := by
  cases x with
  | proc t => cases hown
  | sched d => rw [hI.cur_sched hx]

/-- The shape of what a scheduler has pushed. -/
lemma Inv.shape_cur (hown : x.owner = none) : (s.pos x).SchedShape (s.hart c).sie (s.pushed x) := by
  have hsh := hI.shared c
  rw [hx] at hsh
  cases x with
  | proc t => cases hown
  | sched d =>
    obtain rfl := hI.cur_sched hx
    exact hsh.2.shape

/-- The position does not matter to the others. -/
lemma Inv.move (hpos : s.pos x = q) (hold : q.Plain) (hq : q'.Plain)
    (hloc : Local x.owner (s.hart c) q' (s.pushed x))
    (hshape : x.owner = none → q'.SchedShape (s.hart c).sie (s.pushed x)) :
    Inv (s.setPos x q') := by
  rw [setPos_eq s c]
  exact hI.plainStep hx (.refl s c x) (fun _ h => h) (hpos ▸ hold) hq hloc rfl hshape

lemma Inv.pushOff (hpos : s.pos x = q) (hold : q.Plain) (hset : q.Settled) (hq : q'.Plain)
    (hok : q'.Ok x.owner (outer (s.hart c).sie (s.pushed x)))
    (hrec : q'.Recorded false ((s.hart c).sie :: s.pushed x))
    (hsaved : q'.Saved (outer (s.hart c).sie (s.pushed x)))
    (hshape : x.owner = none → q'.SchedShape false ((s.hart c).sie :: s.pushed x)) :
    Inv (s.pushOff c x q') :=
  hI.plainStep hx (.refl s c x) (fun _ h => h) (hpos ▸ hold) hq
    ((hI.loc_cur hx hpos).pushOff hset hok hrec hsaved) rfl hshape

/-- `pop_off` panics, or goes back to the recorded state. -/
lemma Inv.popOff (hpos : s.pos x = q) (hold : q.Plain) (hset : q.Settled) (hq : q'.Plain)
    (hin : ¬q'.Inside)
    (hok : ∀ b o, s.pushed x = b :: o → q'.Ok x.owner (outer b o) ∧ q'.Recorded b o ∧
      q'.Saved (outer b o) ∧ (x.owner = none → q'.SchedShape b o)) : Inv (s.popOff c x q') := by
  have hl := hI.loc_cur hx hpos
  cases ho : s.pushed x with
  | nil =>
    rw [ho] at hl
    obtain ⟨msg, hmsg⟩ := hl.popOff_nil
    rw [Sys.popOff, hmsg]
    exact hI.panic msg
  | cons b o =>
    rw [ho] at hl
    obtain ⟨hok, hrec, hsaved, hshape⟩ := hok b o ho
    rw [Sys.popOff, hl.popOff_eq hset, ho]
    exact hI.plainStep hx (.refl s c x) (fun _ h => h) (hpos ▸ hold) hq
      (hl.popOff hset hok hrec hsaved hin) rfl hshape

/-- `release`, up to `pop_off`. -/
lemma Inv.unlock (k : Spinlock) (hpos : s.pos x = q) (hold : q.Plain) (hq : q'.Plain)
    (hloc : Local x.owner (s.hart c) q' (s.pushed x))
    (hshape : x.owner = none → q'.SchedShape (s.hart c).sie (s.pushed x)) :
    Inv (s.unlock c x k q') := by
  unfold Sys.unlock
  split
  case isTrue hk =>
    rw [setLock_setPos_eq s c]
    exact hI.plainStep hx (.release hk x) (fun _ h => h) (hpos ▸ hold) hq hloc rfl hshape
  case isFalse => exact hI.panic _

/-- `acquire`, after `push_off`, to a position that does not need the lock. -/
lemma Inv.spin {k : Spinlock} (hpos : s.pos x = q) (hold : q.Plain) (hq : q'.Plain)
    (hloc : Local x.owner (s.hart c) q' (s.pushed x))
    (hshape : x.owner = none → q'.SchedShape (s.hart c).sie (s.pushed x))
    (hs' : s.spin c x k q' = some s') : Inv s' := by
  unfold Sys.spin at hs'
  split at hs'
  case h_1 hk =>
    obtain rfl := some.inj hs'
    rw [setLock_setPos_eq s c]
    exact hI.plainStep hx (.acquire hk x) (fun _ h => h) (hpos ▸ hold) hq hloc rfl hshape
  case h_2 c' hk =>
    split at hs'
    · obtain rfl := some.inj hs'
      exact hI.panic _
    · cases hs'

/-- An interrupt. -/
lemma Inv.interrupt (hs : (s.hart c).sie = true) :
    Inv ((s.setHart c { s.hart c with sie := false }).setPos x (.handler (s.pos x))) := by
  have hl := hI.loc_cur hx rfl
  have ho := hl.noff_eq_zero hs
  have hshape := hI.shape_cur hx
  rw [ho, hs] at hshape
  rw [ho] at hl
  have hcalm := hl.calm hs hshape
  have hok := hl.ok
  rw [hs] at hok
  rw [setHart_setPos_eq, ho]
  exact hI.plainStep hx (.refl s c x) (fun _ h => h) hcalm.plain trivial
    (hl.setSie ⟨rfl, hcalm, hok⟩ trivial trivial id) rfl fun _ => trivial

/-- The return from an interrupt. -/
lemma Inv.iret {ret : Pos} (hpos : s.pos x = .handler ret) (h0 : (s.hart c).noff = 0) :
    Inv ((s.setHart c { s.hart c with sie := true }).setPos x ret) := by
  have hl := hI.loc_cur hx hpos
  have ho : s.pushed x = [] := List.length_eq_zero_iff.mp (hl.noff.symm.trans h0)
  rw [ho] at hl
  obtain ⟨-, hcalm, hok⟩ := hl.ok
  rw [setHart_setPos_eq, ho]
  exact hI.plainStep hx (.refl s c x) (fun _ h => h) (by rw [hpos]; trivial) hcalm.plain
    (hl.setSie hok hcalm.recorded (hcalm.saved _) hcalm.not_inside) rfl fun _ => hcalm.shape _

/-- A scheduler has no process while it runs code. -/
lemma Inv.isSome_of_proc (hq : (s.pos x).atCode) (hp : (s.hart c).proc ≠ none) : x.owner.isSome := by
  have hsh := hI.shared c
  rw [hx] at hsh
  cases x with
  | proc t => rfl
  | sched d =>
    obtain rfl := hI.cur_sched hx
    refine absurd (hsh.2.proc fun k found => ⟨fun h => ?_, fun h => ?_⟩) hp
    · rw [h] at hq
      exact Bool.false_ne_true hq
    · rw [h] at hq
      exact Bool.false_ne_true hq

/-- `intr_on` or `intr_off`, outside all sections. -/
lemma Inv.setSie (hq : s.pos x = .code) (h0 : (s.hart c).noff = 0) (v : Bool) :
    Inv (s.setHart c { s.hart c with sie := v }) := by
  have hl := hI.loc_cur hx hq
  have ho : s.pushed x = [] := List.length_eq_zero_iff.mp (hl.noff.symm.trans h0)
  rw [ho] at hl
  rw [setHart_eq s c x, ho, hq]
  exact hI.plainStep hx (.refl s c x) (fun _ h => h) (by rw [hq]; trivial) trivial
    (hl.setSie hl.ok trivial trivial id) rfl fun _ => trivial

/-- What code outside the functions does. -/
lemma Inv.op (hq : (s.pos x).atCode) {a : Op} (hs' : s.op c x (s.pos x) a = some s') : Inv s' := by
  have hl := hI.loc_cur hx rfl
  have hfree := Pos.free_of_atCode hq
  cases a with
  | pushOff =>
    obtain rfl := some.inj hs'
    exact hI.pushOff hx rfl hfree.plain hfree.settled hfree.plain hl.ok (hfree.recorded _ _)
      (hfree.saved _) fun _ => hfree.shape _ _
  | popOff =>
    obtain rfl := some.inj hs'
    refine hI.popOff hx rfl hfree.plain hfree.settled hfree.plain hfree.not_inside fun b o ho => ?_
    refine ⟨?_, hfree.recorded _ _, hfree.saved _, fun _ => hfree.shape _ _⟩
    rw [← outer_cons (s.hart c).sie, ← ho]
    exact hl.ok
  | acquire k =>
    obtain rfl := some.inj hs'
    exact hI.pushOff hx rfl hfree.plain hfree.settled trivial ⟨hq, hl.ok⟩ trivial trivial
      fun _ => trivial
  | release k =>
    obtain rfl := some.inj hs'
    exact hI.unlock hx k rfl hfree.plain trivial
      (hl.move ⟨hq, hl.ok⟩ trivial (fun _ => hfree.settled) trivial False.elim) fun _ => trivial
  | call f =>
    rw [Sys.op] at hs'
    split at hs'
    case isFalse => cases hs'
    case isTrue hf =>
      obtain rfl := some.inj hs'
      have hsome : x.owner.isSome := by
        rcases hf with hcode | ⟨-, hproc⟩
        · have hok := hl.ok
          rw [hcode] at hok
          exact hok
        · exact hI.isSome_of_proc hx hq hproc
      exact hI.move hx rfl hfree.plain trivial
        (hl.move ⟨hq, hsome, hl.ok⟩ ⟨False.elim, fun _ => rfl⟩ (fun _ => hfree.settled) trivial
          False.elim) fun _ => trivial
  | store t u =>
    rw [Sys.op] at hs'
    split at hs'
    case isFalse => cases hs'
    case isTrue hlock =>
      obtain rfl := some.inj hs'
      rw [setProc_eq s c x]
      refine hI.plainStep hx (.store hlock fun _ => u.running) ?_ hfree.plain hfree.plain hl rfl
        (hI.shape_cur hx)
      intro j hj
      by_cases hjt : j = t
      · subst hjt
        rw [update_self]
        exact u.running hj
      · rw [update_of_ne hjt]
        exact hj
  | intrOn =>
    rw [Sys.op] at hs'
    split at hs'
    case isFalse => cases hs'
    case isTrue hc =>
      obtain rfl := some.inj hs'
      exact hI.setSie hx hc.1 hc.2 true
  | intrOff =>
    rw [Sys.op] at hs'
    split at hs'
    case isFalse => cases hs'
    case isTrue hc =>
      obtain rfl := some.inj hs'
      exact hI.setSie hx hc.1 hc.2 false

end

/-! ## `yield` and `sleep` -/

section

variable {f : Fn} {sie : Bool} {ret : Pos} {p : ℕ} (hI : Inv s) (hx : s.cur c = x)
include hI hx

/-- A thread that calls one of the functions is that of a process. -/
lemma Inv.owner_of_call {st : Stage} (hpos : s.pos x = .call f st sie ret) :
    ∃ t, x = .proc t ∧ ProcOn s c t ∧ ret.atCode ∧ st.Names (some t) ∧
      ret.Ok (some t) (outer (s.hart c).sie (s.pushed x)) := by
  have hok := (hI.loc_cur hx hpos).ok
  have hsh := hI.shared c
  rw [hx] at hsh
  obtain ⟨hret, hname, hok⟩ := hok
  cases x with
  | proc t => exact ⟨t, rfl, hsh, hret, hname, hok⟩
  | sched d => cases st <;> cases hname

/-- `myproc` yields the process, and `intena` is the same within a section. -/
lemma Inv.withProc_eq {t : ℕ} (hp : ProcOn s c t) : ∃ i, (s.pushed x ≠ [] → i = (s.hart c).intena) ∧
    ∀ next, s.withProc c next = next { s.hart c with intena := i } t := by
  obtain ⟨i, hmy, hi⟩ := (hI.loc_cur hx rfl).myproc_eq
  refine ⟨i, hi, fun next => ?_⟩
  rw [Sys.withProc, hmy]
  exact (congrArg (Option.bind · _) hp.proc).trans (bind_some ..)

lemma Inv.callEnter (hpos : s.pos x = .call f .enter sie ret)
    (hs' : s.call c x f .enter sie ret = some s') : Inv s' := by
  obtain ⟨t, rfl, hp, hret, hname, hok⟩ := hI.owner_of_call hx hpos
  have hl := hI.loc_cur hx hpos
  have hl' : Local (some t) (s.hart c) (.call f (.acquire t) sie ret) (s.pushed (.proc t)) :=
    hl.move ⟨hret, rfl, hok⟩ hl.recorded (fun _ => trivial) trivial False.elim
  obtain ⟨i, hi, hwith⟩ := hI.withProc_eq hx hp
  rw [Sys.call, hwith] at hs'
  obtain rfl := some.inj hs'
  rw [setHart_setPos_eq]
  exact hI.plainStep hx (.refl s c _) (fun _ h => h) (by rw [hpos]; trivial) trivial
    (hl'.setIntena hi) rfl fun _ => trivial

lemma Inv.callAcquire (hpos : s.pos x = .call f (.acquire p) sie ret)
    (hs' : s.call c x f (.acquire p) sie ret = some s') : Inv s' := by
  obtain ⟨t, rfl, hp, hret, hname, hok⟩ := hI.owner_of_call hx hpos
  rw [Sys.call] at hs'
  obtain rfl := some.inj hs'
  refine hI.pushOff hx hpos trivial trivial trivial ⟨hret, hname, hok⟩
    ⟨fun _ => ?_, fun h => absurd trivial h⟩ trivial fun _ => trivial
  rw [List.head?_cons, (hI.loc_cur hx hpos).recorded.2 id]

lemma Inv.callSpin (hpos : s.pos x = .call f (.spin p) sie ret)
    (hs' : s.call c x f (.spin p) sie ret = some s') : Inv s' := by
  obtain ⟨t, rfl, hp, hret, hname, hok⟩ := hI.owner_of_call hx hpos
  obtain rfl : t = p := some.inj hname
  have hl := hI.loc_cur hx hpos
  rw [Sys.call, Sys.spin] at hs'
  split at hs'
  case h_1 hk =>
    obtain rfl := some.inj hs'
    rw [setLock_setPos_eq s c]
    refine hI.procStep hx (.acquire hk _)
      (hl.move ⟨hret, rfl, hok⟩ hl.recorded (fun _ => trivial) trivial fun _ => trivial) hp.proc
      (Or.inl ?_) fun _ => update_self ..
    exact hp.state.resolve_right (by rw [hpos]; exact id)
  case h_2 c' hk =>
    split at hs'
    · obtain rfl := some.inj hs'
      exact hI.panic _
    · cases hs'

/-- The process gives up the CPU. -/
lemma Inv.callStore {p' : Proc} (hpos : s.pos x = .call f (.locked p) sie ret) :
    Inv ((s.setProc p p').setPos x (.call f (.sched p) sie ret)) := by
  obtain ⟨t, rfl, hp, hret, hname, hok⟩ := hI.owner_of_call hx hpos
  obtain rfl : t = p := some.inj hname
  have hl := hI.loc_cur hx hpos
  have hlock := hp.holds (by rw [hpos]; trivial)
  rw [setProc_setPos_eq s c]
  exact hI.procStep hx (.store hlock fun h => absurd rfl h)
    (hl.move ⟨hret, rfl, hok⟩ hl.recorded (fun _ => trivial) trivial fun _ => trivial) hp.proc
    (Or.inr trivial) fun _ => hlock

lemma Inv.callLocked (hpos : s.pos x = .call f (.locked p) sie ret)
    (hs' : s.call c x f (.locked p) sie ret = some s') : Inv s' := by
  cases f with
  | yield =>
    obtain rfl := some.inj hs'
    exact hI.callStore hx hpos
  | sleep =>
    rw [Sys.call] at hs'
    split at hs'
    case isTrue =>
      obtain rfl := some.inj hs'
      exact hI.callStore hx hpos
    case isFalse =>
      obtain ⟨t, rfl, hp, hret, hname, hok⟩ := hI.owner_of_call hx hpos
      obtain rfl := some.inj hs'
      have hl := hI.loc_cur hx hpos
      rw [setPos_eq s c]
      exact hI.procStep hx (.refl s c _)
        (hl.move ⟨hret, hname, hok⟩ hl.recorded (fun _ => trivial) trivial fun _ => trivial) hp.proc
        (Or.inl (hp.state.resolve_right (by rw [hpos]; exact id))) False.elim

omit hI hx in
lemma SchedOn.of_resumed {k : ℕ} {found : Bool} (hpos : s.pos (.sched c) = .resumed k found)
    (ho : s.pushed (.sched c) = [false]) : SchedOn s c where
  shape := by
    rw [hpos]
    exact ho
  proc h := absurd hpos (h k found).2
  test _ _ h := absurd (hpos.symm.trans h) nofun
  swtch _ _ h := absurd (hpos.symm.trans h) nofun

/-- `sched` panics, or switches to the scheduler of the CPU. -/
lemma Inv.callSched (hpos : s.pos x = .call f (.sched p) sie ret)
    (hs' : s.call c x f (.sched p) sie ret = some s') : Inv s' := by
  obtain ⟨t, rfl, hp, hret, hname, hok⟩ := hI.owner_of_call hx hpos
  obtain rfl : t = p := some.inj hname
  have hl := hI.loc_cur hx hpos
  obtain ⟨i, hi, hwith⟩ := hI.withProc_eq hx hp
  rw [Sys.call, Sys.sched, hwith] at hs'
  split_ifs at hs' with hlock hnoff hrun hsie
  · exact some.inj hs' ▸ hI.panic _
  · exact some.inj hs' ▸ hI.panic _
  · exact some.inj hs' ▸ hI.panic _
  · exact some.inj hs' ▸ hI.panic _
  · obtain rfl := some.inj hs'
    obtain ⟨b, ho⟩ : ∃ b, s.pushed (.proc t) = [b] :=
      List.length_eq_one_iff.mp (hl.noff.symm.trans (not_not.mp hnoff))
    rw [ho] at hl hi
    have hsie' : sie = b := some.inj (hl.recorded.1 trivial).symm
    have hib : i = b := (hi (List.cons_ne_nil _ _)).trans (hl.intena (List.cons_ne_nil _ _) trivial)
    obtain ⟨k, found, hres⟩ := hp.resumed
    rw [setHart_setPos_eq]
    refine hI.switch hx (fun c' hc' => ?_) nofun ?_
      ⟨rfl, .of_resumed hres hp.pushed⟩
      (fun t' ht' => ?_) fun _ _ _ _ _ _ => nofun
    · have hcc := hI.cur_sched hc'
      subst hcc
      exact absurd (hx.symm.trans hc') nofun
    · rw [hres, hp.pushed]
      exact ⟨not_not.mp hnoff, fun _ => Bool.eq_false_iff.mpr hsie, nofun, rfl, trivial,
        fun _ h => h.elim, trivial, fun _ => List.cons_ne_nil _ _⟩
    · obtain rfl := Thread.proc.inj ht'
      rw [ho, outer_cons] at hok
      rw [ho, hsie']
      exact ⟨⟨hret, rfl, hok⟩, Or.inl ⟨f, b, ret, congrArg (fun j => Pos.call f (.back t j) b ret) hib,
        rfl⟩⟩

lemma Inv.callBack {intena : Bool} (hpos : s.pos x = .call f (.back p intena) sie ret)
    (hs' : s.call c x f (.back p intena) sie ret = some s') : Inv s' := by
  obtain ⟨t, rfl, hp, hret, hname, hok⟩ := hI.owner_of_call hx hpos
  have hl := hI.loc_cur hx hpos
  obtain rfl := some.inj hs'
  rw [setHart_setPos_eq]
  exact hI.plainStep hx (.refl s c _) (fun _ h => h) (by rw [hpos]; trivial) trivial
    ⟨hl.noff, hl.off, hl.inner, ⟨hret, hname, hok⟩, hl.recorded, fun _ _ => hl.saved, trivial,
      fun _ => hl.inside trivial⟩ rfl fun _ => trivial

lemma Inv.callUnlock (hpos : s.pos x = .call f (.unlock p) sie ret)
    (hs' : s.call c x f (.unlock p) sie ret = some s') : Inv s' := by
  obtain ⟨t, rfl, hp, hret, hname, hok⟩ := hI.owner_of_call hx hpos
  have hl := hI.loc_cur hx hpos
  obtain rfl := some.inj hs'
  exact hI.unlock hx _ hpos trivial trivial
    (hl.move ⟨hret, rfl, hok⟩ hl.recorded (fun _ => trivial) trivial fun _ => trivial)
    fun _ => trivial

lemma Inv.callPop (hpos : s.pos x = .call f .pop sie ret)
    (hs' : s.call c x f .pop sie ret = some s') : Inv s' := by
  obtain ⟨t, rfl, hp, hret, hname, hok⟩ := hI.owner_of_call hx hpos
  obtain rfl := some.inj hs'
  refine hI.popOff hx hpos trivial trivial trivial id fun b o ho => ?_
  have hhead := (hI.loc_cur hx hpos).recorded.1 trivial
  rw [ho, List.head?_cons, some.injEq] at hhead
  rw [ho, outer_cons] at hok
  exact ⟨⟨hret, rfl, hok⟩, ⟨False.elim, fun _ => hhead.symm⟩, trivial, fun _ => trivial⟩

lemma Inv.callLeave (hpos : s.pos x = .call f .leave sie ret)
    (hs' : s.call c x f .leave sie ret = some s') : Inv s' := by
  obtain ⟨t, rfl, hp, hret, hname, hok⟩ := hI.owner_of_call hx hpos
  obtain rfl := some.inj hs'
  have hfree := Pos.free_of_atCode hret
  exact hI.move hx hpos trivial hfree.plain ((hI.loc_cur hx hpos).free hfree hok trivial)
    fun _ => hfree.shape _ _

end

/-! ## `forkret` -/

lemma Inv.setIntena (hI : Inv s) (hx : s.cur c = x) {i : Bool} (hold : (s.pos x).Plain)
    (hi : s.pushed x ≠ [] → i = (s.hart c).intena) :
    Inv (s.setHart c { s.hart c with intena := i }) := by
  rw [setHart_eq s c x]
  exact hI.plainStep hx (.refl s c x) (fun _ h => h) hold hold ((hI.loc_cur hx rfl).setIntena hi) rfl
    (hI.shape_cur hx)

lemma Inv.forkret (hI : Inv s) (hx : s.cur c = x) (hpos : s.pos x = .forkret)
    (hs' : s.go c x = some s') : Inv s' := by
  have hl := hI.loc_cur hx hpos
  have hsh := hI.shared c
  rw [hx] at hsh
  cases x with
  | sched d => exact absurd hl.ok Bool.false_ne_true
  | proc t =>
    obtain ⟨i, hi, hwith⟩ := hI.withProc_eq hx hsh
    rw [Sys.go, hpos] at hs'
    simp only [hwith] at hs'
    obtain rfl := some.inj hs'
    have hI' := hI.setIntena hx (by rw [hpos]; trivial) hi
    exact hI'.unlock hx _ hpos trivial trivial
      ((hI'.loc_cur hx hpos).move rfl trivial (fun _ => trivial) trivial fun _ => trivial)
      fun _ => trivial

lemma Inv.forkretPop (hI : Inv s) (hx : s.cur c = x) (hpos : s.pos x = .forkretPop)
    (hs' : s.go c x = some s') : Inv s' := by
  rw [Sys.go, hpos] at hs'
  obtain rfl := some.inj hs'
  exact hI.popOff hx hpos trivial trivial trivial id
    fun b o _ => ⟨(hI.loc_cur hx hpos).ok, trivial, trivial, fun _ => trivial⟩

/-! ## `scheduler` -/

/-- A suspended thread goes on with what the scheduler has pushed. -/
lemma Suspended.local {k : ℕ} (hs : Suspended q o k) (h1 : h.noff = 1)
    (hsie : h.sie = false) (hint : h.intena = false) : Local (some k) h q o := by
  have hok := hs.ok
  rcases hs.back with ⟨f, b, ret, rfl, rfl⟩ | ⟨rfl, rfl⟩
  · exact ⟨h1, fun _ => hsie, nofun, hok, ⟨fun _ => rfl, fun h => absurd trivial h⟩,
      fun _ h => h.elim, rfl, fun _ => List.cons_ne_nil _ _⟩
  · exact ⟨h1, fun _ => hsie, nofun, rfl, trivial, fun _ _ => hint, trivial,
      fun _ => List.cons_ne_nil _ _⟩

lemma Suspended.not_holdsLock {k : ℕ} (hs : Suspended q o k) : ¬q.HoldsLock := by
  rcases hs.back with ⟨f, b, ret, rfl, rfl⟩ | ⟨rfl, rfl⟩ <;> exact id

section

variable {k : ℕ} {found : Bool} (hI : Inv s) (hx : s.cur c = .sched c)
include hI hx

lemma Inv.schedOn : SchedOn s c := by
  have hsh := hI.shared c
  rw [hx] at hsh
  exact hsh.2

lemma Inv.shape_sched (hpos : s.pos (.sched c) = q) :
    q.SchedShape (s.hart c).sie (s.pushed (.sched c)) := hpos ▸ (hI.schedOn hx).shape

/-- `intr_on` or `intr_off` between two scans. -/
lemma Inv.schedSie (hpos : s.pos (.sched c) = q) (hold : q.Plain) (ho : s.pushed (.sched c) = [])
    (hq : q'.Plain) (hok : q'.Ok none v) (hrec : q'.Recorded v []) (hsaved : q'.Saved v)
    (hin : ¬q'.Inside) (hshape : q'.SchedShape v []) :
    Inv ((s.setHart c { s.hart c with sie := v }).setPos (.sched c) q') := by
  have hl := hI.loc_cur hx hpos
  rw [ho] at hl
  rw [setHart_setPos_eq, ho]
  exact hI.plainStep hx (.refl s c _) (fun _ h => h) (hpos ▸ hold) hq
    (hl.setSie hok hrec hsaved hin) rfl fun _ => hshape

lemma Inv.intrOn (hpos : s.pos (.sched c) = .intrOn) (hs' : s.go c (.sched c) = some s') :
    Inv s' := by
  have ho := hI.shape_sched hx hpos
  rw [Sys.go, hpos] at hs'
  obtain rfl := some.inj hs'
  exact hI.schedSie hx hpos trivial ho trivial rfl trivial trivial id rfl

lemma Inv.intrOff (hpos : s.pos (.sched c) = .intrOff) (hs' : s.go c (.sched c) = some s') :
    Inv s' := by
  have ho := hI.shape_sched hx hpos
  rw [Sys.go, hpos] at hs'
  obtain rfl := some.inj hs'
  exact hI.schedSie hx hpos trivial ho trivial rfl trivial trivial id ⟨rfl, rfl⟩

lemma Inv.scan (hpos : s.pos (.sched c) = .scan k found) (hs' : s.go c (.sched c) = some s') :
    Inv s' := by
  obtain ⟨ho, hsie⟩ := hI.shape_sched hx hpos
  rw [Sys.go, hpos] at hs'
  simp only at hs'
  split at hs'
  case isTrue =>
    obtain rfl := some.inj hs'
    refine hI.pushOff hx hpos trivial trivial trivial rfl trivial trivial fun _ => ?_
    rw [ho, hsie]
    rfl
  case isFalse =>
    obtain rfl := some.inj hs'
    exact hI.move hx hpos trivial trivial
      ((hI.loc_cur hx hpos).move rfl trivial (fun _ => trivial) trivial False.elim) fun _ => ho

lemma Inv.spinProc (hpos : s.pos (.sched c) = .spinProc k found)
    (hs' : s.go c (.sched c) = some s') : Inv s' := by
  have hl := hI.loc_cur hx hpos
  have hp := hI.schedOn hx
  have ho := hI.shape_sched hx hpos
  rw [Sys.go, hpos] at hs'
  simp only [Sys.spin] at hs'
  split at hs'
  case h_1 hk =>
    obtain rfl := some.inj hs'
    rw [setLock_setPos_eq s c]
    refine hI.schedStep hx (.acquire hk _)
      (hl.move rfl trivial (fun _ => trivial) trivial fun _ => trivial) ho (fun _ => ?_) ?_ nofun
    · exact hp.proc fun _ _ => by rw [hpos]; exact ⟨nofun, nofun⟩
    · rintro _ _ ⟨⟩
      exact update_self ..
  case h_2 c' hk =>
    split at hs'
    · obtain rfl := some.inj hs'
      exact hI.panic _
    · cases hs'

/-- Nobody runs a process that is `RUNNABLE` while its lock is held by a scheduler. -/
lemma Inv.not_cur_of_runnable (hlock : s.lock (.proc k) = some c)
    (hstate : (s.proc k).state = .runnable) (c' : ℕ) : s.cur c' ≠ .proc k := by
  intro hc'
  have hp := hI.shared c'
  rw [hc'] at hp
  rcases hp.state with hrun | hat
  · exact absurd (hstate.symm.trans hrun) nofun
  · have hcc : c = c' := some.inj (hlock.symm.trans (hp.holds hat.holdsLock))
    subst hcc
    exact absurd (hx.symm.trans hc') nofun

lemma Inv.test (hpos : s.pos (.sched c) = .test k found) (hs' : s.go c (.sched c) = some s') :
    Inv s' := by
  have hl := hI.loc_cur hx hpos
  have hp := hI.schedOn hx
  have ho := hI.shape_sched hx hpos
  have hlock := hp.test k found hpos
  have hproc : (s.hart c).proc = none :=
    hp.proc fun _ _ => by rw [hpos]; exact ⟨nofun, nofun⟩
  rw [Sys.go, hpos] at hs'
  simp only at hs'
  split at hs'
  case isTrue hstate =>
    obtain rfl := some.inj hs'
    rw [setProc_setHart_setPos_eq]
    have hl' : Local none (s.hart c) (.swtch k found) (s.pushed (.sched c)) :=
      hl.move rfl trivial (fun _ => trivial) trivial fun _ => trivial
    refine hI.schedStep hx (.store hlock fun _ _ => rfl)
      ⟨hl'.noff, hl'.off, hl'.inner, hl'.ok, hl'.recorded, hl'.intena, hl'.saved, hl'.inside⟩ ho
      (fun h => absurd rfl (h k found).1) nofun ?_
    rintro _ _ ⟨⟩
    refine ⟨hlock, rfl, ?_, hI.not_cur_of_runnable hx hlock hstate⟩
    rw [update_self]
    rfl
  case isFalse =>
    obtain rfl := some.inj hs'
    rw [setPos_eq s c]
    exact hI.schedStep hx (.refl s c _)
      (hl.move rfl trivial (fun _ => trivial) trivial fun _ => trivial) ho (fun _ => hproc) nofun nofun

lemma Inv.swtch (hpos : s.pos (.sched c) = .swtch k found) (hs' : s.go c (.sched c) = some s') :
    Inv s' := by
  have hl := hI.loc_cur hx hpos
  have hp := hI.schedOn hx
  have ho : s.pushed (.sched c) = [false] := hI.shape_sched hx hpos
  obtain ⟨hlock, hproc, hrun, hcur⟩ := hp.swtch k found hpos
  have hsusp := hI.suspended k hcur
  rw [ho] at hl
  rw [Sys.go, hpos] at hs'
  obtain rfl := some.inj hs'
  rw [setPos_eq s c]
  refine hI.switch hx hcur nofun
    (hsusp.local hl.noff (hl.off (List.cons_ne_nil _ _))
      (hl.intena (List.cons_ne_nil _ _) trivial)) ?_ nofun ?_
  · exact ⟨(congrArg Hart.proc (update_self ..)).trans hproc, Or.inl hrun,
      fun h => absurd h hsusp.not_holdsLock, ⟨k, found, update_self ..⟩,
      (update_self ..).trans ho⟩
  · rintro c' k' found' hc hcur' hpos' ⟨⟩
    have hsh := hI.shared c'
    rw [hcur'] at hsh
    exact hc (some.inj ((hsh.2.swtch k found' hpos').1.symm.trans hlock))

lemma Inv.resumed (hpos : s.pos (.sched c) = .resumed k found)
    (hs' : s.go c (.sched c) = some s') : Inv s' := by
  have hl := hI.loc_cur hx hpos
  have ho : s.pushed (.sched c) = [false] := hI.shape_sched hx hpos
  rw [ho] at hl
  rw [Sys.go, hpos] at hs'
  obtain rfl := some.inj hs'
  rw [setHart_setPos_eq, ho]
  exact hI.schedStep hx (.refl s c _)
    ⟨hl.noff, hl.off, hl.inner, rfl, trivial, fun _ _ => rfl, trivial,
      fun _ => List.cons_ne_nil _ _⟩ rfl (fun _ => rfl) nofun nofun

lemma Inv.schedUnlock (hpos : s.pos (.sched c) = .unlock k found)
    (hs' : s.go c (.sched c) = some s') : Inv s' := by
  have ho := hI.shape_sched hx hpos
  rw [Sys.go, hpos] at hs'
  obtain rfl := some.inj hs'
  exact hI.unlock hx _ hpos trivial trivial
    ((hI.loc_cur hx hpos).move rfl trivial (fun _ => trivial) trivial fun _ => trivial) fun _ => ho

lemma Inv.popProc (hpos : s.pos (.sched c) = .popProc k found)
    (hs' : s.go c (.sched c) = some s') : Inv s' := by
  have ho : s.pushed (.sched c) = [false] := hI.shape_sched hx hpos
  rw [Sys.go, hpos] at hs'
  obtain rfl := some.inj hs'
  refine hI.popOff hx hpos trivial trivial trivial id fun b o hbo => ?_
  obtain ⟨rfl, rfl⟩ := List.cons.inj (ho.symm.trans hbo)
  exact ⟨rfl, trivial, trivial, fun _ => ⟨rfl, rfl⟩⟩

end

/-! ## All steps -/

/-- The next step of a thread keeps the invariant. -/
lemma Inv.go (hI : Inv s) (hx : s.cur c = x) (hs' : s.go c x = some s') : Inv s' := by
  cases hpos : s.pos x with
  | code =>
    rw [Sys.go, hpos] at hs'
    cases hs'
  | handler ret =>
    rw [Sys.go, hpos] at hs'
    simp only at hs'
    split at hs'
    case isTrue h0 => exact some.inj hs' ▸ hI.iret hx hpos h0
    case isFalse => cases hs'
  | spin k ret =>
    have hl := hI.loc_cur hx hpos
    have hfree := Pos.free_of_atCode hl.ok.1
    rw [Sys.go, hpos] at hs'
    exact hI.spin hx hpos trivial hfree.plain (hl.free hfree hl.ok.2 trivial)
      (fun _ => hfree.shape _ _) hs'
  | pop ret =>
    obtain ⟨hret, hok⟩ := (hI.loc_cur hx hpos).ok
    have hfree := Pos.free_of_atCode hret
    rw [Sys.go, hpos] at hs'
    obtain rfl := some.inj hs'
    refine hI.popOff hx hpos trivial trivial hfree.plain hfree.not_inside fun b o ho => ?_
    rw [ho, outer_cons] at hok
    exact ⟨hok, hfree.recorded _ _, hfree.saved _, fun _ => hfree.shape _ _⟩
  | call f st sie ret =>
    rw [Sys.go, hpos] at hs'
    cases st with
    | enter => exact hI.callEnter hx hpos hs'
    | acquire p => exact hI.callAcquire hx hpos hs'
    | spin p => exact hI.callSpin hx hpos hs'
    | locked p => exact hI.callLocked hx hpos hs'
    | sched p => exact hI.callSched hx hpos hs'
    | back p intena => exact hI.callBack hx hpos hs'
    | unlock p => exact hI.callUnlock hx hpos hs'
    | pop => exact hI.callPop hx hpos hs'
    | leave => exact hI.callLeave hx hpos hs'
  | forkret => exact hI.forkret hx hpos hs'
  | forkretPop => exact hI.forkretPop hx hpos hs'
  | intrOn =>
    obtain rfl := hI.eq_sched hx (hI.loc_cur hx hpos).ok
    exact hI.intrOn hx hpos hs'
  | intrOff =>
    obtain rfl := hI.eq_sched hx (hI.loc_cur hx hpos).ok
    exact hI.intrOff hx hpos hs'
  | scan k found =>
    obtain rfl := hI.eq_sched hx (hI.loc_cur hx hpos).ok
    exact hI.scan hx hpos hs'
  | spinProc k found =>
    obtain rfl := hI.eq_sched hx (hI.loc_cur hx hpos).ok
    exact hI.spinProc hx hpos hs'
  | test k found =>
    obtain rfl := hI.eq_sched hx (hI.loc_cur hx hpos).ok
    exact hI.test hx hpos hs'
  | swtch k found =>
    obtain rfl := hI.eq_sched hx (hI.loc_cur hx hpos).ok
    exact hI.swtch hx hpos hs'
  | resumed k found =>
    obtain rfl := hI.eq_sched hx (hI.loc_cur hx hpos).ok
    exact hI.resumed hx hpos hs'
  | unlock k found =>
    obtain rfl := hI.eq_sched hx (hI.loc_cur hx hpos).ok
    exact hI.schedUnlock hx hpos hs'
  | popProc k found =>
    obtain rfl := hI.eq_sched hx (hI.loc_cur hx hpos).ok
    exact hI.popProc hx hpos hs'

/-- What a step is. -/
lemma step_cases {n : ℕ} {a : ℕ × Act} (hs' : Sys.step n s a = some s') :
    s.go a.1 (s.cur a.1) = some s' ∨
    (∃ o, (s.pos (s.cur a.1)).atCode ∧
      s.op a.1 (s.cur a.1) (s.pos (s.cur a.1)) o = some s') ∨
    (s.hart a.1).sie = true ∧ s' = (s.setHart a.1 { s.hart a.1 with sie := false }).setPos
      (s.cur a.1) (.handler (s.pos (s.cur a.1))) := by
  unfold Sys.step at hs'
  simp only at hs'
  split at hs'
  case isFalse => cases hs'
  case isTrue =>
    split at hs'
    case h_1 => exact Or.inl hs'
    case h_2 o _ =>
      split at hs'
      case isTrue hq => exact Or.inr (Or.inl ⟨o, hq, hs'⟩)
      case isFalse => cases hs'
    case h_3 =>
      split at hs'
      case isTrue hsie => exact Or.inr (Or.inr ⟨hsie, (some.inj hs').symm⟩)
      case isFalse => cases hs'

/-- **Every step keeps the invariant.** -/
theorem Inv.step (hI : Inv s) {n : ℕ} {a : ℕ × Act} (hs' : Sys.step n s a = some s') : Inv s' := by
  rcases step_cases hs' with hgo | ⟨o, hq, hop⟩ | ⟨hsie, rfl⟩
  · exact hI.go rfl hgo
  · exact hI.op rfl hq hop
  · exact hI.interrupt rfl hsie

end

end Xv6.Intr
