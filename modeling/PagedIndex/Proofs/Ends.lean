/-!
# How stateful actions end

An action on a state ends with a result or with an error, and the state it reached stays in
either case. `Ends` asks one thing of each ending; the lemmas below take a program apart at its
binds, so that a specification of each step gives one of the whole.
-/

namespace PagedIndex

variable {ε σ α β : Type}

/-- From `s` the action ends with a result as in `done` or with an error as in `failed`. -/
def Ends (action : EStateM ε σ α) (s : σ) (done : α → σ → Prop) (failed : ε → σ → Prop) : Prop :=
  match action.run s with
  | .ok a s' => done a s'
  | .error e s' => failed e s'

namespace Ends

variable {action : EStateM ε σ α} {s : σ} {done : α → σ → Prop} {failed : ε → σ → Prop}

theorem imp {done' : α → σ → Prop} {failed' : ε → σ → Prop} (h : Ends action s done failed)
    (hd : ∀ a s', done a s' → done' a s') (hf : ∀ e s', failed e s' → failed' e s') :
    Ends action s done' failed' := by
  unfold Ends at *
  cases run : action.run s with
  | ok a s' => rw [run] at h; exact hd a s' h
  | error e s' => rw [run] at h; exact hf e s' h

theorem and {done' : α → σ → Prop} {failed' : ε → σ → Prop} (h : Ends action s done failed)
    (h' : Ends action s done' failed') :
    Ends action s (fun a s' => done a s' ∧ done' a s')
      (fun e s' => failed e s' ∧ failed' e s') := by
  unfold Ends at *
  cases run : action.run s with
  | ok a s' => rw [run] at h h'; exact ⟨h, h'⟩
  | error e s' => rw [run] at h h'; exact ⟨h, h'⟩

@[simp] theorem pure_iff {a : α} : Ends (pure a) s done failed ↔ done a s := Iff.rfl

@[simp] theorem throw_iff {e : ε} :
    Ends (throw e : EStateM ε σ α) s done failed ↔ failed e s := Iff.rfl

@[simp] theorem bind_iff {next : α → EStateM ε σ β} {done : β → σ → Prop} :
    Ends (action >>= next) s done failed ↔
      Ends action s (fun a s' => Ends (next a) s' done failed) failed := by
  change (match EStateM.bind action next s with | .ok a s' => _ | .error e s' => _) ↔ _
  unfold EStateM.bind Ends EStateM.run
  cases action s <;> rfl

@[simp] theorem map_iff {f : α → β} {done : β → σ → Prop} :
    Ends (f <$> action) s done failed ↔ Ends action s (fun a => done (f a)) failed := by
  change (match EStateM.map f action s with | .ok a s' => _ | .error e s' => _) ↔ _
  unfold EStateM.map Ends EStateM.run
  cases action s <;> rfl

@[simp] theorem discard_iff {done : PUnit → σ → Prop} :
    Ends (discard action) s done failed ↔ Ends action s (fun _ => done ⟨⟩) failed :=
  map_iff (f := fun _ => PUnit.unit)

@[simp] theorem get_iff {done : σ → σ → Prop} :
    Ends (get : EStateM ε σ σ) s done failed ↔ done s s := Iff.rfl

@[simp] theorem modify_iff {f : σ → σ} {done : PUnit → σ → Prop} :
    Ends (modify f : EStateM ε σ PUnit) s done failed ↔ done ⟨⟩ (f s) := Iff.rfl

@[simp] theorem tryCatch_iff {handler : ε → EStateM ε σ α} :
    Ends (tryCatch action handler) s done failed ↔
      Ends action s done fun e s' => Ends (handler e) s' done failed := by
  change (match EStateM.tryCatch action handler s with | .ok a s' => _ | .error e s' => _) ↔ _
  unfold EStateM.tryCatch Ends EStateM.run
  cases action s <;> rfl

/-- A cleanup runs however the action ended, and its own failure takes the place of that. -/
theorem tryFinally_of {cleanup : EStateM ε σ β}
    (h : Ends action s (fun a s' => Ends cleanup s' (fun _ => done a) failed)
      (fun e s' => Ends cleanup s' (fun _ => failed e) failed)) :
    Ends (tryFinally action cleanup) s done failed := by
  unfold Ends EStateM.run at *
  simp only [tryFinally, tryFinally', Functor.map, EStateM.map]
  cases ran : action s with
  | ok a s' => cases cleaned : cleanup s' <;> simp only [ran, cleaned] at h ⊢ <;> exact h
  | error e s' => cases cleaned : cleanup s' <;> simp only [ran, cleaned] at h ⊢ <;> exact h

theorem run_eq (action : EStateM ε σ α) (s : σ) :
    Ends action s (fun a s' => action.run s = .ok a s')
      (fun e s' => action.run s = .error e s') := by
  unfold Ends
  cases ran : action.run s <;> rfl

theorem of_ok {a : α} {s' : σ} (h : Ends action s done failed) (ran : action.run s = .ok a s') :
    done a s' := by
  unfold Ends at h
  rwa [ran] at h

theorem of_error {e : ε} {s' : σ} (h : Ends action s done failed)
    (ran : action.run s = .error e s') : failed e s' := by
  unfold Ends at h
  rwa [ran] at h

theorem exists_ok (h : Ends action s done fun _ _ => False) :
    ∃ a s', action.run s = .ok a s' ∧ done a s' := by
  cases ran : action.run s with
  | ok a s' => exact ⟨a, s', rfl, h.of_ok ran⟩
  | error e s' => exact (h.of_error ran).elim

theorem exists_error (h : Ends action s (fun _ _ => False) failed) :
    ∃ e s', action.run s = .error e s' ∧ failed e s' := by
  cases ran : action.run s with
  | ok a s' => exact (h.of_ok ran).elim
  | error e s' => exact ⟨e, s', rfl, h.of_error ran⟩

theorem forM_keeps {items : List α} {each : α → EStateM ε σ PUnit} (Keeps : σ → Prop)
    {failed : ε → σ → Prop} (start : Keeps s)
    (step : ∀ a ∈ items, ∀ s, Keeps s → Ends (each a) s (fun _ => Keeps) failed) :
    Ends (items.forM each) s (fun _ => Keeps) failed := by
  induction items generalizing s with
  | nil => exact start
  | cons a rest ih =>
    change Ends (each a >>= fun _ => rest.forM each) s _ failed
    rw [bind_iff]
    refine (step a (by simp) s start).imp (fun _ s' kept => ?_) (fun _ _ h => h)
    exact ih kept fun b hb => step b (by simp [hb])

end Ends

/-- What each step of a fold keeps, a fold that ends has kept. -/
theorem foldlM_keeps {step : σ → α → Except ε σ} (Keeps : σ → Prop)
    (each : ∀ s a s', Keeps s → step s a = .ok s' → Keeps s') {s s' : σ} (start : Keeps s)
    {items : List α} (ran : items.foldlM step s = .ok s') : Keeps s' := by
  induction items generalizing s with
  | nil => cases ran; exact start
  | cons a rest ih =>
    rw [List.foldlM_cons] at ran
    cases first : step s a with
    | error e => rw [first] at ran; cases ran
    | ok next =>
      rw [first] at ran
      exact ih (each s a next start first) ran

end PagedIndex
