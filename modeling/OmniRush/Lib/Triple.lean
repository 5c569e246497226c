/-!
# Pre- and postconditions of stateful code that may fail

Code over a state that answers or fails, with the state kept when it fails. A triple
says what holds of the state and the answer after the code when it started where the
precondition holds, and what holds of the state when it failed. There is one rule for
each way such code is put together, and a walk through the code applies them in turn.
The same for what the code may cost (`Costs`).
-/

namespace OmniRush

/-- Code over a state `σ` that may fail with an `ε`. -/
abbrev Code (σ ε α : Type) := ExceptT ε (StateM σ) α

/-- From `P`, the code answers with `Q` or fails with `E`. -/
def Triple {σ ε α : Type} (P : σ → Prop) (code : Code σ ε α) (Q : α → σ → Prop)
    (E : σ → Prop) : Prop :=
  ∀ s, P s → match code.run.run s with
    | (.ok a, s') => Q a s'
    | (.error _, s') => E s'

namespace Triple

variable {σ ε α β : Type} {P P' : σ → Prop} {Q Q' : α → σ → Prop} {E E' : σ → Prop}

theorem pure {a : α} (h : ∀ s, P s → Q a s) : Triple P (Pure.pure a : Code σ ε α) Q E := h

theorem throw {e : ε} (h : ∀ s, P s → E s) : Triple P (throw e : Code σ ε α) Q E := h

theorem get {Q : σ → σ → Prop} (h : ∀ s, P s → Q s s) :
    Triple P (MonadState.get : Code σ ε σ) Q E := h

theorem modify {f : σ → σ} {Q : Unit → σ → Prop} (h : ∀ s, P s → Q () (f s)) :
    Triple P (modify f : Code σ ε Unit) Q E := h

theorem bind {code : Code σ ε α} {next : α → Code σ ε β} {R : β → σ → Prop}
    (hcode : Triple P code Q E) (hnext : ∀ a, Triple (Q a) (next a) R E) :
    Triple P (code >>= next) R E := by
  intro s hs
  have h := hcode s hs
  have hrun : (code >>= next).run.run s = match code.run.run s with
      | (.ok a, s') => (next a).run.run s'
      | (.error e, s') => (.error e, s') := by
    simp only [ExceptT.run, StateT.run, Bind.bind, ExceptT.bind, ExceptT.mk, StateT.bind]
    cases code s with
    | mk answer s' => cases answer <;> rfl
  rw [hrun]
  cases hc : code.run.run s with
  | mk answer s' =>
      rw [hc] at h
      cases answer with
      | ok a => exact hnext a s' h
      | error e => exact h

theorem weaken {code : Code σ ε α} (h : Triple P code Q E) (hP : ∀ s, P' s → P s)
    (hQ : ∀ a s, Q a s → Q' a s) (hE : ∀ s, E s → E' s) : Triple P' code Q' E' := by
  intro s hs
  have hrun := h s (hP s hs)
  cases hc : code.run.run s with
  | mk answer s' =>
      rw [hc] at hrun
      cases answer with
      | ok a => exact hQ a s' hrun
      | error e => exact hE s' hrun

theorem tryCatch {code : Code σ ε α} {handler : ε → Code σ ε α} {E' : σ → Prop}
    (hcode : Triple P code Q E) (hhandler : ∀ e, Triple E (handler e) Q E') :
    Triple P (tryCatch code handler) Q E' := by
  intro s hs
  have h := hcode s hs
  have hrun : (MonadExcept.tryCatch code handler).run.run s = match code.run.run s with
      | (.ok a, s') => (.ok a, s')
      | (.error e, s') => (handler e).run.run s' := by
    simp only [ExceptT.run, StateT.run, MonadExcept.tryCatch, tryCatchThe, MonadExceptOf.tryCatch,
      ExceptT.tryCatch, ExceptT.mk, Bind.bind, StateT.bind]
    cases code s with
    | mk answer s' => cases answer <;> rfl
  rw [hrun]
  cases hc : code.run.run s with
  | mk answer s' =>
      rw [hc] at h
      cases answer with
      | ok a => exact h
      | error e => exact hhandler e s' h

theorem assume {code : Code σ ε α} (h : ∀ s, P s → Triple (fun s' => s' = s) code Q E) :
    Triple P code Q E := fun s hs => h s hs s rfl

theorem ran {code : Code σ ε α} (h : Triple P code Q E) {s : σ} (hs : P s) :
    Triple (fun s' => s' = s) code (fun a s' => Q a s' ∧ code.run.run s = (.ok a, s')) E := by
  rintro _ rfl
  have hrun := h _ hs
  cases hc : code.run.run _ with
  | mk answer s' =>
      rw [hc] at hrun
      cases answer with
      | ok a => exact ⟨hrun, rfl⟩
      | error e => exact hrun

theorem ok {code : Code σ ε α} {s s' : σ} {a : α} (h : Triple P code Q E) (hs : P s)
    (hrun : code.run.run s = (.ok a, s')) : Q a s' := by
  have hpost := h s hs
  rwa [hrun] at hpost

theorem error {code : Code σ ε α} {s s' : σ} {e : ε} (h : Triple P code Q E) (hs : P s)
    (hrun : code.run.run s = (.error e, s')) : E s' := by
  have hpost := h s hs
  rwa [hrun] at hpost

end Triple

/-- From one state: what holds of the answer and the state, and what is the case if the code
failed. -/
def RunsFrom {σ ε α : Type} (E : Prop) (s : σ) (code : Code σ ε α) (Q : α → σ → Prop) : Prop :=
  Triple (fun s' => s' = s) code Q fun _ => E

namespace RunsFrom

variable {σ ε α β : Type} {E E' : Prop} {s : σ} {Q Q' : α → σ → Prop} {R : β → σ → Prop}

theorem pure {a : α} (h : Q a s) : RunsFrom E s (Pure.pure a : Code σ ε α) Q := by
  rintro _ rfl
  exact h

theorem throw {e : ε} (h : E) : RunsFrom E s (throw e : Code σ ε α) Q := fun _ _ => h

theorem modify {f : σ → σ} {Q : Unit → σ → Prop} (h : Q () (f s)) :
    RunsFrom E s (modify f : Code σ ε Unit) Q := by
  rintro _ rfl
  exact h

theorem bind {code : Code σ ε α} {next : α → Code σ ε β} (h : RunsFrom E s code Q)
    (hnext : ∀ a t, Q a t → RunsFrom E t (next a) R) : RunsFrom E s (code >>= next) R :=
  Triple.bind h fun a => Triple.assume (hnext a)

theorem get {next : σ → Code σ ε β} (h : RunsFrom E s (next s) R) :
    RunsFrom E s ((MonadState.get : Code σ ε σ) >>= next) R := by
  refine bind (Q := fun a t => a = s ∧ t = s) ?_ fun a t ht => ?_
  · exact Triple.get fun _ ht => ⟨ht, ht⟩
  · rw [ht.1, ht.2]
    exact h

theorem set {t : σ} {next : Unit → Code σ ε β} (h : RunsFrom E t (next ()) R) :
    RunsFrom E s ((MonadState.set t : Code σ ε Unit) >>= next) R := by
  refine bind (Q := fun _ u => u = t) (fun _ _ => rfl) fun _ u hu => ?_
  rw [hu]
  exact h

theorem weaken {code : Code σ ε α} (h : RunsFrom E s code Q) (hQ : ∀ a t, Q a t → Q' a t) :
    RunsFrom E s code Q' := Triple.weaken h (fun _ h => h) hQ fun _ h => h

theorem ok {code : Code σ ε α} {a : α} {t : σ} (h : RunsFrom E s code Q)
    (hrun : code.run.run s = (.ok a, t)) : Q a t := Triple.ok h rfl hrun

theorem error {code : Code σ ε α} {e : ε} {t : σ} (h : RunsFrom E s code Q)
    (hrun : code.run.run s = (.error e, t)) : E := Triple.error h rfl hrun

theorem fails {code : Code σ ε α} (h : RunsFrom E s code Q) (hE : E → E') :
    RunsFrom E' s code Q := Triple.weaken h (fun _ h => h) (fun _ _ h => h) fun _ => hE

end RunsFrom

/-- Code that adds at most `k` to a count, also where it fails. -/
def Costs {σ ε α : Type} (count : σ → Nat) (k : Nat) (code : Code σ ε α) : Prop :=
  ∀ n, Triple (fun s => count s ≤ n) code (fun _ s => count s ≤ n + k) (fun s => count s ≤ n + k)

namespace Costs

variable {σ ε α β : Type} {count : σ → Nat} {k l : Nat}

theorem pure {a : α} : Costs count k (Pure.pure a : Code σ ε α) :=
  fun _ => Triple.pure fun _ h => Nat.le_add_right_of_le h

theorem get : Costs count 0 (MonadState.get : Code σ ε σ) := fun _ => Triple.get fun _ h => h

theorem modify {f : σ → σ} (h : ∀ s, count (f s) = count s) :
    Costs count 0 (modify f : Code σ ε Unit) := by
  refine fun n => Triple.modify fun s hs => ?_
  rw [h]
  exact hs

theorem mono {code : Code σ ε α} (h : Costs count k code) (hle : k ≤ l) : Costs count l code :=
  fun n => (h n).weaken (fun _ h => h) (fun _ _ h => by omega) fun _ h => by omega

theorem bind {code : Code σ ε α} {next : α → Code σ ε β} (h : Costs count k code)
    (hnext : ∀ a, Costs count l (next a)) : Costs count (k + l) (code >>= next) := by
  intro n
  have hfirst : Triple (fun s => count s ≤ n) code (fun _ s => count s ≤ n + k)
      (fun s => count s ≤ n + (k + l)) :=
    (h n).weaken (fun _ h => h) (fun _ _ h => h) fun _ h => by omega
  refine Triple.bind hfirst fun a => ?_
  rw [← Nat.add_assoc]
  exact hnext a (n + k)

theorem free {code : Code σ ε α} {next : α → Code σ ε β} (h : Costs count 0 code)
    (hnext : ∀ a, Costs count k (next a)) : Costs count k (code >>= next) :=
  (h.bind hnext).mono (Nat.le_of_eq (Nat.zero_add k))

theorem run_le {code : Code σ ε α} {s : σ} (h : Costs count k code) :
    count (code.run.run s).2 ≤ count s + k := by
  cases hrun : code.run.run s with
  | mk answer s' =>
      cases answer with
      | ok a => exact (h (count s)).ok (Nat.le_refl _) hrun
      | error e => exact (h (count s)).error (Nat.le_refl _) hrun

end Costs

end OmniRush

/-!
## Operations that fail, and crashes

Code over a disk that meets, at each of its operations, what the environment has for it: the
operation is done, or it fails and changes nothing, or there is a crash. Every disk on the way is
kept, so what holds of all of them holds wherever a crash comes.

Code that takes a failed look for an answer is misled where there was something to see. What is
shown of code that was not misled begins with `Held`.
-/

namespace OmniRush

inductive Fate where
  | done
  | fails
  | crashes
  deriving DecidableEq, Repr

inductive Interruption where
  | failed
  | crashed
  deriving DecidableEq, Repr

/-- A disk among faults. After the fates that are given everything is done. -/
structure Faulty (σ : Type) where
  disk : σ
  fates : List Fate := []
  /-- Every disk so far, the last one first. -/
  disks : List σ := []
  misled : Bool := false

abbrev FaultyCode (σ α : Type) := Code (Faulty σ) Interruption α

variable {σ α β : Type}

/-- An operation, `none` where it fails by itself. -/
def operate (operation : σ → Option (α × σ)) : FaultyCode σ α := do
  let w ← get
  match w.fates.headD .done with
  | .crashes => throw .crashed
  | .fails => do
      modify fun w => { w with fates := w.fates.tail }
      throw .failed
  | .done =>
      match operation w.disk with
      | none => do
          modify fun w => { w with fates := w.fates.tail }
          throw .failed
      | some (a, disk) => do
          modify fun w => { w with disk, fates := w.fates.tail, disks := disk :: w.disks }
          pure a

/-- Whether there is something, no if the look fails. -/
def look (there : σ → Bool) : FaultyCode σ Bool := do
  let w ← get
  match w.fates.headD .done with
  | .crashes => throw .crashed
  | .fails => do
      modify fun w => { w with fates := w.fates.tail, misled := w.misled || there w.disk }
      pure false
  | .done => do
      modify fun w => { w with fates := w.fates.tail }
      pure (there w.disk)

/-- Whether code failed. A crash ends all. -/
def attempt (code : FaultyCode σ Unit) : FaultyCode σ Bool :=
  tryCatch (do code; pure false) fun
    | .failed => pure true
    | .crashed => throw .crashed

/-! ## What holds of code that is not misled -/

/-- If the code was not misled, the disk is as said and every disk so far kept the invariant. -/
def Held (I P : σ → Prop) (w : Faulty σ) : Prop :=
  w.misled = false → P w.disk ∧ ∀ disk ∈ w.disks, I disk

variable {I J P : σ → Prop}

theorem Held.weaken {P' : σ → Prop} {w : Faulty σ} (h : Held I P w) (hP : ∀ s, P s → P' s) :
    Held I P' w := fun hw => ⟨hP _ (h hw).1, (h hw).2⟩

/-- An operation from `P` to `Q`. Where it fails or there is a crash what is left is in `J`. -/
theorem operate_spec {operation : σ → Option (α × σ)} {Q : α → σ → Prop} (hJ : ∀ s, P s → J s)
    (h : ∀ s a s', P s → operation s = some (a, s') → Q a s' ∧ I s') :
    Triple (Held I P) (operate operation) (fun a => Held I (Q a)) (Held I J) := by
  refine Triple.bind (Triple.get (Q := fun w s => s = w ∧ Held I P w) fun s hs => ⟨rfl, hs⟩) ?_
  intro w
  split
  · exact Triple.throw fun s ⟨hs, hw⟩ => hs ▸ hw.weaken hJ
  · refine Triple.bind (Triple.modify (Q := fun _ => Held I P) fun s ⟨hs, hw⟩ => hs ▸ hw) ?_
    exact fun _ => Triple.throw fun s hs => hs.weaken hJ
  split
  · refine Triple.bind (Triple.modify (Q := fun _ => Held I P) fun s ⟨hs, hw⟩ => hs ▸ hw) ?_
    exact fun _ => Triple.throw fun s hs => hs.weaken hJ
  · next a disk hdone =>
      refine Triple.bind (Triple.modify (Q := fun _ => Held I (Q a)) ?_) fun _ =>
        Triple.pure fun s hs => hs
      intro s ⟨hs, hw⟩ hmisled
      subst hs
      obtain ⟨hP, hdisks⟩ := hw hmisled
      obtain ⟨hQ, hkept⟩ := h _ _ _ hP hdone
      refine ⟨hQ, fun d hd => ?_⟩
      rcases List.mem_cons.mp hd with rfl | hbefore
      · exact hkept
      · exact hdisks d hbefore

theorem look_spec {there : σ → Bool} (hJ : ∀ s, P s → J s) :
    Triple (Held I P) (look there) (fun b => Held I fun s => P s ∧ there s = b) (Held I J) := by
  refine Triple.bind (Triple.get (Q := fun w s => s = w ∧ Held I P w) fun s hs => ⟨rfl, hs⟩) ?_
  intro w
  split
  · exact Triple.throw fun s ⟨hs, hw⟩ => hs ▸ hw.weaken hJ
  · refine Triple.bind (Triple.modify
      (Q := fun _ => Held I fun s => P s ∧ there s = false) ?_) fun _ => Triple.pure fun s hs => hs
    intro s ⟨hs, hw⟩ hmisled
    subst hs
    obtain ⟨hbefore, hthere⟩ := Bool.or_eq_false_iff.mp hmisled
    obtain ⟨hP, hdisks⟩ := hw hbefore
    exact ⟨⟨hP, hthere⟩, hdisks⟩
  · refine Triple.bind (Triple.modify
      (Q := fun _ => Held I fun s => P s ∧ there s = there w.disk) ?_) fun _ =>
        Triple.pure fun s hs => hs
    intro s ⟨hs, hw⟩ hmisled
    subst hs
    obtain ⟨hP, hdisks⟩ := hw hmisled
    exact ⟨⟨hP, rfl⟩, hdisks⟩

theorem attempt_spec {code : FaultyCode σ Unit} {Q : σ → Prop} (hJ : ∀ s, Q s → J s)
    (h : Triple (Held I P) code (fun _ => Held I Q) (Held I J)) :
    Triple (Held I P) (attempt code)
      (fun failed => Held I fun s => J s ∧ (failed = false → Q s)) (Held I J) := by
  have hcode : Triple (Held I P) (do code; pure false)
      (fun failed => Held I fun s => J s ∧ (failed = false → Q s)) (Held I J) :=
    Triple.bind h fun _ => Triple.pure fun s hs => hs.weaken fun d hd => ⟨hJ d hd, fun _ => hd⟩
  refine Triple.tryCatch hcode fun e => ?_
  cases e with
  | failed =>
      exact Triple.pure fun s hs => hs.weaken fun d hd => ⟨hd, fun h => by cases h⟩
  | crashed => exact Triple.throw fun s hs => hs

end OmniRush
