import LittleComputer.Proofs.Routine
import LittleComputer.Proofs.Interruption

/-!
# Related machines

Two machines are related through a relation between their processors and one between their hosts,
and are equal in everything else. If related hosts give the same answers and stay related, then so
do the machines, in every access and in every routine that respects the relation between the
processors.
-/

namespace LittleComputer

variable {κ : Type}

/-- Both have no result for the same reason, or both have one and the results are related. -/
inductive Agree {α β : Type} (R : α → β → Prop) : Except Fault α → Except Fault β → Prop where
  | ok {a : α} {b : β} (h : R a b) : Agree R (.ok a) (.ok b)
  | error (e : Fault) : Agree R (.error e) (.error e)

namespace Agree

variable {α β : Type} {R S : α → β → Prop} {x : Except Fault α} {y : Except Fault β}

theorem inv (h : Agree R x y) :
    (∃ e, x = .error e ∧ y = .error e) ∨ ∃ a b, x = .ok a ∧ y = .ok b ∧ R a b := by
  cases h with
  | ok h => exact .inr ⟨_, _, rfl, rfl, h⟩
  | error e => exact .inl ⟨e, rfl, rfl⟩

/-- Agreement survives weakening the relation between the results. -/
theorem mono (hRS : ∀ {a b}, R a b → S a b) (h : Agree R x y) : Agree S x y := by
  cases h with
  | ok h => exact .ok (hRS h)
  | error e => exact .error e

end Agree

/-! ## Relations between the parts -/

/-- Related processors have the same stop code, and stay related when it is changed. -/
structure Cpu.Bisimulation (C : Cpu → Cpu → Prop) : Prop where
  stop : ∀ {c c'}, C c c' → c'.stop = c.stop
  stopWith : ∀ {c c'} reason, C c c' → C { c with stop := reason } { c' with stop := reason }

variable [Console κ]

/-- The consoles of related hosts give the same answers, and the hosts stay related whatever is done
with the consoles and whatever is reported. -/
structure Host.Bisimulation (H : Host κ → Host κ → Prop) : Prop where
  takeBreak : ∀ {h h'}, H h h' →
    (Console.takeBreak h.console).1 = (Console.takeBreak h'.console).1 ∧
      H { h with console := (Console.takeBreak h.console).2 }
        { h' with console := (Console.takeBreak h'.console).2 }
  read : ∀ {h h'} timeout, H h h' →
    (Console.read h.console timeout).1 = (Console.read h'.console timeout).1 ∧
      H { h with console := (Console.read h.console timeout).2 }
        { h' with console := (Console.read h'.console timeout).2 }
  write : ∀ {h h'} bytes, H h h' →
    H { h with console := Console.write h.console bytes }
      { h' with console := Console.write h'.console bytes }
  report : ∀ {h h'} severity text, H h h' → H (h.report severity text) (h'.report severity text)
  patience : ∀ {h h'}, H h h' → Console.patience h.console = Console.patience h'.console

/-! ## Terminals -/

namespace Terminal.Session

/-- Sessions with the same terminal, the same stop code and related hosts. -/
structure Related (H : Host κ → Host κ → Prop) (s s' : Session κ) : Prop where
  terminal : s'.terminal = s.terminal
  stop : s'.stop = s.stop
  host : H s.host s'.host

namespace Related

variable {H : Host κ → Host κ → Prop} {s s' : Session κ}

theorem noticeBreak (hr : Related H s s') (hH : Host.Bisimulation H) :
    Related H s.noticeBreak s'.noticeBreak := by
  obtain ⟨hasked, hhost⟩ := hH.takeBreak hr.host
  refine ⟨hr.terminal, ?_, hhost⟩
  show (if (Console.takeBreak s'.host.console).1 && s'.terminal.attached then _ else s'.stop) = _
  rw [← hasked, hr.terminal, hr.stop]
  rfl

theorem receive (hr : Related H s s') (hH : Host.Bisimulation H) (name : Text) (timeout : Nat) :
    Related H (s.receive name timeout) (s'.receive name timeout) := by
  obtain ⟨hanswer, hhost⟩ := hH.read timeout hr.host
  unfold Session.receive
  cases hread : Console.read s.host.console timeout with
  | mk answer c =>
    cases hread' : Console.read s'.host.console timeout with
    | mk answer' c' =>
      rw [hread, hread'] at hanswer hhost
      obtain rfl : answer = answer' := hanswer
      cases answer with
      | key b => exact ⟨by simp only [hr.terminal], hr.stop, hhost⟩
      | nothing => exact ⟨hr.terminal, hr.stop, hhost⟩
      | ended => exact ⟨by simp only [hr.terminal], hr.stop, hH.report _ _ hhost⟩

theorem poll (hr : Related H s s') (hH : Host.Bisimulation H) (name : Text) (timeout : Nat) :
    Related H (s.poll name timeout) (s'.poll name timeout) := by
  have hnotice := hr.noticeBreak hH
  unfold Session.poll
  dsimp only
  rw [hnotice.terminal]
  split
  · exact hnotice
  · exact hnotice.receive hH name timeout

omit [Console κ] in
theorem isWaiting (hr : Related H s s') : s'.isWaiting = s.isWaiting := by
  rw [Session.isWaiting, Session.isWaiting, hr.terminal, hr.stop]

omit [Console κ] in
theorem delivered (hr : Related H s s') :
    s.delivered.1 = s'.delivered.1 ∧ Related H s.delivered.2 s'.delivered.2 := by
  unfold Session.delivered
  rw [hr.terminal]
  split
  · exact ⟨rfl, rfl, hr.stop, hr.host⟩
  · exact ⟨rfl, hr⟩

/-- Waiting for a key tries as often on either side, since every poll keeps the sessions related. -/
theorem await (hr : Related H s s') (hH : Host.Bisimulation H) (name : Text) (tries : Nat) :
    Agree (fun x y => x.1 = y.1 ∧ Related H x.2 y.2) (s.await name tries)
      (s'.await name tries) := by
  induction tries generalizing s s' with
  | zero =>
    cases hs : s.isWaiting with
    | true =>
      rw [await_zero_of_waiting hs, await_zero_of_waiting (hr.isWaiting.trans hs)]
      exact .error .stalled
    | false =>
      rw [await_eq_delivered hs, await_eq_delivered (hr.isWaiting.trans hs)]
      exact .ok hr.delivered
  | succ tries ih =>
    cases hs : s.isWaiting with
    | true =>
      rw [await_of_waiting hs, await_of_waiting (hr.isWaiting.trans hs)]
      exact ih (hr.poll hH name pollTimeout)
    | false =>
      rw [await_eq_delivered hs, await_eq_delivered (hr.isWaiting.trans hs)]
      exact .ok hr.delivered

/-- Related sessions read the same word from a register, and stay related. -/
theorem readRegister (hr : Related H s s') (hH : Host.Bisimulation H) (name : Text)
    (address : Word) :
    Agree (fun x y => x.1 = y.1 ∧ Related H x.2 y.2) (s.readRegister name address)
      (s'.readRegister name address) := by
  have hpoll := hr.poll hH name 0
  unfold Session.readRegister
  dsimp only
  rw [hpoll.terminal, ← hH.patience hr.host]
  split
  · exact .error _
  · split
    · exact .ok ⟨rfl, hpoll⟩
    · split
      · exact hr.await hH name _
      · split
        · exact .ok ⟨rfl, hr⟩
        · exact .ok ⟨rfl, hr⟩

theorem writeRegister (hr : Related H s s') (hH : Host.Bisimulation H) (address w : Word) :
    Agree (Related H) (s.writeRegister address w) (s'.writeRegister address w) := by
  unfold Session.writeRegister
  dsimp only
  split
  · exact .error _
  · split
    · exact .ok ⟨hr.terminal, hr.stop, hH.write _ hr.host⟩
    · exact .ok hr

end Related

end Terminal.Session

/-! ## Devices -/

namespace Device

variable {H : Host κ → Host κ → Prop} {h h' : Host κ}

theorem read_related (hH : Host.Bisimulation H) (hr : H h h') (d : Device) (a : Word)
    (stop : StopCode) :
    Agree (fun x y => x.1 = y.1 ∧ x.2.1 = y.2.1 ∧ x.2.2.1 = y.2.2.1 ∧ H x.2.2.2 y.2.2.2)
      (d.read a stop h) (d.read a stop h') := by
  unfold read
  split
  · exact .ok ⟨rfl, rfl, rfl, hr⟩
  · exact .ok ⟨rfl, rfl, rfl, hr⟩
  · rename_i t _
    have hsession : Terminal.Session.Related H ⟨t, stop, h⟩ ⟨t, stop, h'⟩ := ⟨rfl, rfl, hr⟩
    rcases (hsession.readRegister hH d.name a).inv with ⟨e, hx, hy⟩ | ⟨x, y, hx, hy, hw, hs⟩
    · rw [hx, hy]
      exact .error e
    · rw [hx, hy]
      exact .ok ⟨hw, by rw [hs.terminal], hs.stop.symm, hs.host⟩

theorem write_related (hH : Host.Bisimulation H) (hr : H h h') (d : Device) (a w : Word) :
    Agree (fun x y => x.1 = y.1 ∧ H x.2 y.2) (d.write a w h) (d.write a w h') := by
  unfold write
  split
  · exact .ok ⟨rfl, hr⟩
  · exact .ok ⟨rfl, hr⟩
  · rename_i t _
    have hsession : Terminal.Session.Related H ⟨t, .running, h⟩ ⟨t, .running, h'⟩ :=
      ⟨rfl, rfl, hr⟩
    rcases (hsession.writeRegister hH a w).inv with ⟨e, hx, hy⟩ | ⟨x, y, hx, hy, hs⟩
    · rw [hx, hy]
      exact .error e
    · rw [hx, hy]
      exact .ok ⟨rfl, hs.host⟩

end Device

/-! ## Machines -/

namespace Machine

/-- Machines with related processors and related hosts, and otherwise equal. -/
structure Related (C : Cpu → Cpu → Prop) (H : Host κ → Host κ → Prop) (m m' : Machine κ) :
    Prop where
  cpu : C m.cpu m'.cpu
  memory : m'.memory = m.memory
  map : m'.map = m.map
  devices : m'.devices = m.devices
  host : H m.host m'.host

/-- Both have a result, the results are equal, and the machines are related. -/
abbrev AgreeRelated {α : Type} (C : Cpu → Cpu → Prop) (H : Host κ → Host κ → Prop)
    (x y : Except Fault (α × Machine κ)) : Prop :=
  Agree (fun p q => p.1 = q.1 ∧ p.2.Related C H q.2) x y

namespace Related

variable {C : Cpu → Cpu → Prop} {H : Host κ → Host κ → Prop} {m m' : Machine κ}

theorem readDevice (hr : m.Related C H m') (hC : Cpu.Bisimulation C) (hH : Host.Bisimulation H)
    (d : DeviceId) (a : Word) : AgreeRelated C H (readDevice d a m) (readDevice d a m') := by
  unfold Machine.readDevice
  rw [device?_of_devices hr.devices, hC.stop hr.cpu]
  split
  · exact .error _
  · rename_i device _
    rcases (device.read_related hH hr.host a m.cpu.stop).inv with
      ⟨e, hx, hy⟩ | ⟨⟨w, d₁, c, h₁⟩, ⟨w', d₁', c', h₁'⟩, hx, hy, hw, hd, hc, hh⟩
    · rw [hx, hy]
      exact .error e
    · obtain rfl : w = w' := hw
      obtain rfl : d₁ = d₁' := hd
      obtain rfl : c = c' := hc
      rw [hx, hy]
      refine .ok ⟨rfl, hC.stopWith c hr.cpu, hr.memory, hr.map, ?_, hh⟩
      show List.map _ m'.devices = List.map _ m.devices
      rw [hr.devices]

theorem writeDevice (hr : m.Related C H m') (hH : Host.Bisimulation H) (d : DeviceId)
    (a w : Word) : AgreeRelated C H (writeDevice d a w m) (writeDevice d a w m') := by
  unfold Machine.writeDevice
  rw [device?_of_devices hr.devices]
  split
  · exact .error _
  · rename_i device _
    rcases (device.write_related hH hr.host a w).inv with
      ⟨e, hx, hy⟩ | ⟨⟨d₁, h₁⟩, ⟨d₁', h₁'⟩, hx, hy, hd, hh⟩
    · rw [hx, hy]
      exact .error e
    · obtain rfl : d₁ = d₁' := hd
      rw [hx, hy]
      refine .ok ⟨rfl, hr.cpu, hr.memory, hr.map, ?_, hh⟩
      show List.map _ m'.devices = List.map _ m.devices
      rw [hr.devices]

/-- Related machines load the same word, or fail with the same fault. -/
theorem load (hr : m.Related C H m') (hC : Cpu.Bisimulation C) (hH : Host.Bisimulation H)
    (a : Word) : AgreeRelated C H (load a m) (load a m') := by
  unfold Machine.load readMapped
  rw [hr.memory, hr.map]
  split
  · split
    · split
      · exact hr.readDevice hC hH _ a
      · exact .ok ⟨rfl, hr⟩
    · exact .ok ⟨rfl, hr⟩
  · exact .error _

/-- Related machines store alike, or fail with the same fault. -/
theorem store (hr : m.Related C H m') (hH : Host.Bisimulation H) (a w : Word) :
    AgreeRelated C H (store a w m) (store a w m') := by
  unfold Machine.store writeMapped
  rw [hr.memory, hr.map]
  split
  · split
    · split
      · exact hr.writeDevice hH _ a w
      · exact .ok ⟨rfl, hr⟩
    · split
      · exact .ok ⟨rfl, hr.cpu, rfl, rfl, hr.devices, hr.host⟩
      · exact .ok ⟨rfl, hr.cpu, rfl, rfl, hr.devices, hH.report _ _ hr.host⟩
  · exact .error _

end Related

end Machine

/-! ## Routines -/

/-- A trace is a message like any other. -/
theorem Operation.run_trace (address word : Word) (m : Machine κ) :
    (trace address word).run m =
      .ok ((), { m with host := m.host.reportFormatted .trace (traceText address word) }) := by
  have hhost : (if m.host.isLogged .trace then
      m.host.reportFormatted .trace (traceText address word) else m.host) =
      m.host.reportFormatted .trace (traceText address word) := by
    unfold Host.reportFormatted Host.report
    split
    · rfl
    · rfl
  exact congrArg (fun host => Except.ok ((), { m with host })) hhost

/-- The operation changes related processors to related ones, and what comes after it does not
depend on which of two related processors was looked at. -/
def Operation.Respects {α : Type} (C : Cpu → Cpu → Prop) :
    {β : Type} → Operation β → (β → Routine α) → Prop
  | _, look, next => ∀ c c', C c c' → next c' = next c
  | _, change f, _ => ∀ c c', C c c' → C (f c) (f c')
  | _, _, _ => True

namespace Routine

variable {α β : Type} {C : Cpu → Cpu → Prop} {H : Host κ → Host κ → Prop}

/-- No operation of the routine tells related processors apart. -/
def Respects (C : Cpu → Cpu → Prop) : Routine α → Prop
  | done _ => True
  | act o next => o.Respects C next ∧ ∀ b, (next b).Respects C

/-- Equal processors cannot be told apart. -/
theorem respects_eq (r : Routine α) : r.Respects Eq := by
  induction r with
  | done a => trivial
  | act o next ih =>
    refine ⟨?_, ih⟩
    cases o with
    | look => exact fun c c' hc => congrArg next hc.symm
    | change f => exact fun c c' hc => congrArg f hc
    | _ => trivial

/-- Machines that are related after an operation go on related. -/
theorem agree_act {o : Operation β} {next : β → Routine α} {m m' : Machine κ}
    (ho : Machine.AgreeRelated C H (o.run m) (o.run m'))
    (hnext : ∀ b m₁ m₁', m₁.Related C H m₁' →
      Machine.AgreeRelated C H ((next b).run m₁) ((next b).run m₁')) :
    Machine.AgreeRelated C H ((act o next).run m) ((act o next).run m') := by
  rw [run_act, run_act]
  rcases ho.inv with ⟨e, hx, hy⟩ | ⟨⟨b, m₁⟩, ⟨b', m₁'⟩, hx, hy, hb, hr₁⟩
  · rw [hx, hy]
    exact .error e
  · obtain rfl : b = b' := hb
    rw [hx, hy]
    exact hnext b m₁ m₁' hr₁

/-- A routine cannot tell related machines apart if it respects the relation between their
processors. -/
theorem Respects.run (hC : Cpu.Bisimulation C) (hH : Host.Bisimulation H) {r : Routine α}
    (hr : r.Respects C) {m m' : Machine κ} (hm : m.Related C H m') :
    Machine.AgreeRelated C H (r.run m) (r.run m') := by
  induction r generalizing m m' with
  | done a => exact .ok ⟨rfl, hm⟩
  | act o next ih =>
    have hnext := fun b (m₁ m₁' : Machine κ) (hm₁ : m₁.Related C H m₁') => ih b (hr.2 b) hm₁
    cases o with
    | look =>
      have hsame : next m'.cpu = next m.cpu := hr.1 _ _ hm.cpu
      show Machine.AgreeRelated C H ((next m.cpu).run m) ((next m'.cpu).run m')
      rw [hsame]
      exact hnext m.cpu m m' hm
    | change f =>
      have hcpu : C (f m.cpu) (f m'.cpu) := hr.1 _ _ hm.cpu
      exact agree_act (.ok ⟨rfl, hcpu, hm.memory, hm.map, hm.devices, hm.host⟩) hnext
    | load a => exact agree_act (hm.load hC hH a) hnext
    | store a w => exact agree_act (hm.store hH a w) hnext
    | warn text =>
      have hhost := hH.report Severity.warning (Log.formatted text) hm.host
      exact agree_act (.ok ⟨rfl, hm.cpu, hm.memory, hm.map, hm.devices, hhost⟩) hnext
    | trace address w =>
      refine agree_act ?_ hnext
      rw [Operation.run_trace, Operation.run_trace]
      exact .ok ⟨rfl, hm.cpu, hm.memory, hm.map, hm.devices, hH.report _ _ hm.host⟩

end Routine

end LittleComputer
