import LittleComputer.Execution
import LittleComputer.Proofs.Access

/-!
# Routines on a machine

How a routine that is put together from others is carried out, and inductions over everything the
processor can do: what every operation keeps a routine keeps, what no operation notices a routine
does not notice, and of a memory no routine changes anything but the words.
-/

namespace LittleComputer

variable {κ : Type} [Console κ] {α β : Type}

namespace Routine

/-! ## Carrying out -/

theorem run_act (o : Operation β) (next : β → Routine α) (m : Machine κ) :
    (act o next).run m =
      match o.run m with
      | .ok (b, m₁) => (next b).run m₁
      | .error e => .error e := by
  cases h : o.run m with
  | error e => simp only [run, h]
  | ok x => simp only [run, h]

theorem run_bind (r : Routine α) (f : α → Routine β) (m : Machine κ) :
    (r >>= f).run m =
      match r.run m with
      | .ok (a, m₁) => (f a).run m₁
      | .error e => .error e := by
  change (r.bind f).run m = _
  induction r generalizing m with
  | done a => rfl
  | act o next ih =>
    rw [bind, run_act, run_act]
    cases o.run m with
    | error e => rfl
    | ok x => exact ih x.1 x.2

@[simp] theorem run_pure (a : α) (m : Machine κ) : (pure a : Routine α).run m = .ok (a, m) := rfl

@[simp] theorem run_one (o : Operation α) (m : Machine κ) : (one o).run m = o.run m := by
  rw [one, run_act]
  cases o.run m with
  | error e => rfl
  | ok x => rfl

omit [Console κ] in
private theorem then_eq_ok {x : Except Fault (α × Machine κ)}
    {f : α → Machine κ → Except Fault (β × Machine κ)} {y : β × Machine κ} :
    (match x with
      | .ok (a, m₁) => f a m₁
      | .error e => .error e) = .ok y ↔ ∃ a m₁, x = .ok (a, m₁) ∧ f a m₁ = .ok y := by
  cases x with
  | error e => simp
  | ok x =>
    constructor
    · intro h
      exact ⟨x.1, x.2, rfl, h⟩
    · rintro ⟨a, m₁, hx, h⟩
      cases hx
      exact h

theorem run_act_eq_ok {o : Operation β} {next : β → Routine α} {m m' : Machine κ} {a : α} :
    (act o next).run m = .ok (a, m') ↔
      ∃ b m₁, o.run m = .ok (b, m₁) ∧ (next b).run m₁ = .ok (a, m') := by
  rw [run_act]
  exact then_eq_ok

theorem run_bind_eq_ok {r : Routine α} {f : α → Routine β} {m m' : Machine κ} {b : β} :
    (r >>= f).run m = .ok (b, m') ↔
      ∃ a m₁, r.run m = .ok (a, m₁) ∧ (f a).run m₁ = .ok (b, m') := by
  rw [run_bind]
  exact then_eq_ok

@[simp] theorem run_look (m : Machine κ) : look.run m = .ok (m.cpu, m) := rfl

@[simp] theorem run_change (f : Cpu → Cpu) (m : Machine κ) :
    (change f).run m = .ok ((), { m with cpu := f m.cpu }) := rfl

@[simp] theorem run_load (a : Word) (m : Machine κ) : (load a).run m = Machine.load a m :=
  run_one _ m

@[simp] theorem run_store (a w : Word) (m : Machine κ) : (store a w).run m = Machine.store a w m :=
  run_one _ m

@[simp] theorem run_warn (text : Text) (m : Machine κ) :
    (warn text).run m = .ok ((), { m with host := m.host.reportFormatted .warning text }) := rfl

/-! ## Routines of certain operations -/

/-- Every operation of the routine has a property, whatever the answers to the operations. -/
def All (p : {β : Type} → Operation β → Prop) : Routine α → Prop
  | done _ => True
  | act o next => p o ∧ ∀ b, (next b).All p

variable {p q : {β : Type} → Operation β → Prop}

theorem All.pure (a : α) : (Pure.pure a : Routine α).All p := trivial

theorem All.one {o : Operation α} (h : p o) : (one o).All p := ⟨h, fun _ => trivial⟩

theorem All.bind {r : Routine α} {f : α → Routine β} (hr : r.All p) (hf : ∀ a, (f a).All p) :
    (r >>= f).All p := by
  change (r.bind f).All p
  induction r with
  | done a => exact hf a
  | act o next ih => exact ⟨hr.1, fun b => ih b (hr.2 b)⟩

theorem All.mono {r : Routine α} (hr : r.All p)
    (hpq : ∀ {β : Type} (o : Operation β), p o → q o) : r.All q := by
  induction r with
  | done a => trivial
  | act o next ih => exact ⟨hpq o hr.1, fun b => ih b (hr.2 b)⟩

/-- What every operation of a routine keeps, the routine keeps. -/
theorem All.keeps {R : Machine κ → Machine κ → Prop} (hrefl : ∀ m, R m m)
    (htrans : ∀ {m₁ m₂ m₃ : Machine κ}, R m₁ m₂ → R m₂ m₃ → R m₁ m₃)
    (hop : ∀ {β : Type} {o : Operation β} {b : β} {m m' : Machine κ},
      p o → o.run m = .ok (b, m') → R m m')
    {r : Routine α} (hr : r.All p) {m m' : Machine κ} {a : α} (h : r.run m = .ok (a, m')) :
    R m m' := by
  induction r generalizing m with
  | done a =>
    cases h
    exact hrefl _
  | act o next ih =>
    obtain ⟨b, m₁, ho, hn⟩ := run_act_eq_ok.mp h
    exact htrans (hop hr.1 ho) (ih b (hr.2 b) hn)

/-- What no operation notices, no routine notices. -/
theorem run_comm {f : Machine κ → Machine κ}
    (hop : ∀ {β : Type} (o : Operation β) (m : Machine κ),
      o.run (f m) = (o.run m).map (Prod.map id f))
    (r : Routine α) (m : Machine κ) : r.run (f m) = (r.run m).map (Prod.map id f) := by
  induction r generalizing m with
  | done a => rfl
  | act o next ih =>
    rw [run_act, run_act, hop]
    cases o.run m with
    | error e => rfl
    | ok x => exact ih x.1 x.2

/-- A routine changes nothing of a memory but its words. -/
theorem run_memory {r : Routine α} {m m' : Machine κ} {a : α}
    (h : r.run m = .ok (a, m')) : m'.memory = { m.memory with words := m'.memory.words } := by
  induction r generalizing m with
  | done a =>
    cases h
    rfl
  | act o next ih =>
    obtain ⟨b, m₁, ho, hn⟩ := run_act_eq_ok.mp h
    have hop : m₁.memory = { m.memory with words := m₁.memory.words } := by
      cases o with
      | load a => rw [(Machine.load_untouched ho).memory]
      | store a w => rw [(Machine.store_stored ho).memory]
      | look | change | warn | trace =>
        cases ho
        rfl
    rw [ih b hn, hop]

end Routine

namespace Operation

/-- Whatever an operation changes in the processor itself, it changes as `P` says. -/
def Changes (P : Cpu → Cpu → Prop) : {β : Type} → Operation β → Prop
  | _, change f => ∀ c, P c (f c)
  | _, _ => True

theorem Changes.mono {P Q : Cpu → Cpu → Prop} (h : ∀ c c', P c c' → Q c c') {o : Operation β}
    (ho : o.Changes P) : o.Changes Q := by
  cases o with
  | change f => exact fun c => h c (f c) (ho c)
  | _ => trivial

/-- Apart from its own changes an operation can only change the stop code of the processor. -/
theorem Changes.run {P : Cpu → Cpu → Prop} (hstop : ∀ c s, P c { c with stop := s })
    {o : Operation β} (ho : o.Changes P) {m m' : Machine κ} {b : β} (h : o.run m = .ok (b, m')) :
    P m.cpu m'.cpu := by
  cases o with
  | change f =>
    cases h
    exact ho m.cpu
  | load a =>
    rw [(Machine.load_untouched h).cpu]
    exact hstop m.cpu _
  | store a w =>
    rw [(Machine.store_stored h).cpu]
    exact hstop m.cpu m.cpu.stop
  | look | warn | trace =>
    cases h
    exact hstop m.cpu m.cpu.stop

/-- A store goes to an address with the property. -/
def StoresIn (p : Word → Prop) : {β : Type} → Operation β → Prop
  | _, store a _ => p a
  | _, _ => True

/-- What an operation changes in the processor, and where it stores. -/
structure Does (P : Cpu → Cpu → Prop) (p : Word → Prop) {β : Type} (o : Operation β) : Prop where
  changes : o.Changes P
  storesIn : o.StoresIn p

end Operation

namespace Routine

variable {P : Cpu → Cpu → Prop} {p : Word → Prop}

theorem All.changes {r : Routine α} (hr : r.All (Operation.Does P p)) :
    r.All (Operation.Changes P) :=
  hr.mono fun _ ho => ho.changes

theorem All.storesIn {r : Routine α} (hr : r.All (Operation.Does P p)) :
    r.All (Operation.StoresIn p) :=
  hr.mono fun _ ho => ho.storesIn

/-- A routine keeps a relation between processors that its changes keep, if the stop code does not
matter to it. -/
theorem All.keeps_cpu (hrefl : ∀ c, P c c)
    (htrans : ∀ {c₁ c₂ c₃ : Cpu}, P c₁ c₂ → P c₂ c₃ → P c₁ c₃)
    (hstop : ∀ c s, P c { c with stop := s }) {r : Routine α} (hr : r.All (Operation.Changes P))
    {m m' : Machine κ} {a : α} (h : r.run m = .ok (a, m')) : P m.cpu m'.cpu :=
  hr.keeps (R := fun m m' => P m.cpu m'.cpu) (fun m => hrefl m.cpu) htrans
    (fun ho => ho.run hstop) h

/-- A routine changes no words but those it stores to. -/
theorem All.words {r : Routine α} (hr : r.All (Operation.StoresIn p)) {m m' : Machine κ} {x : α}
    (h : r.run m = .ok (x, m')) : ∀ a, ¬ p a → m'.memory.words.get a = m.memory.words.get a := by
  refine hr.keeps (R := fun m m' => ∀ a, ¬ p a → m'.memory.words.get a = m.memory.words.get a)
    (fun _ _ _ => rfl) (fun h h' a ha => (h' a ha).trans (h a ha)) ?_ h
  intro β o b m m' ho hrun a ha
  cases o with
  | load c => rw [(Machine.load_untouched hrun).memory]
  | store c w =>
    have hca : c ≠ a := by
      rintro rfl
      exact ha ho
    rw [(Machine.store_stored hrun).memory]
    dsimp only
    split
    · exact Table.get_set_of_ne _ hca w
    · rfl
  | look | change | warn | trace =>
    cases hrun
    rfl

end Routine

end LittleComputer
