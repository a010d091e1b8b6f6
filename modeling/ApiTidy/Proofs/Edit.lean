import Mathlib.Data.List.Forall2
import ApiTidy.Edit
import ApiTidy.Entries

/-! Edits that leave no trace when they fail. -/
namespace ApiTidy.Edit
variable {ε ε' σ τ α β : Type}

/-- A failure leaves the value as it was. -/
def Atomic (edit : Edit ε σ α) : Prop :=
  ∀ ⦃value : σ⦄ ⦃fault : ε⦄ ⦃changed : σ⦄, edit value = .error fault changed → changed = value

theorem onPart_eq_error {part : τ} {store : τ → σ} {edit : Edit ε τ α} {fault : ε} {changed : σ}
    (h : onPart part store edit = .error fault changed) :
    ∃ inner, edit part = .error fault inner ∧ changed = store inner := by
  unfold onPart at h
  split at h
  next => simp at h
  next cause inner he =>
    obtain ⟨rfl, rfl⟩ := EStateM.Result.error.inj h
    exact ⟨inner, he, rfl⟩

/-- An edit of a part fails as the edit of the whole does. -/
theorem exists_onPart_eq_error_with {part : τ} {store : τ → σ} {edit : Edit ε τ α} {fault : ε} :
    (∃ changed, onPart part store edit = .error fault changed) ↔
      ∃ changed, edit part = .error fault changed := by
  constructor
  · rintro ⟨_, h⟩
    obtain ⟨inner, hinner, -⟩ := onPart_eq_error h
    exact ⟨inner, hinner⟩
  · rintro ⟨inner, h⟩
    exact ⟨store inner, by rw [onPart, h]⟩

/-- An edit of a part fails if and only if the edit of the whole does. -/
theorem exists_onPart_eq_error {part : τ} {store : τ → σ} {edit : Edit ε τ α} :
    (∃ fault changed, onPart part store edit = .error fault changed) ↔
      ∃ fault changed, edit part = .error fault changed :=
  exists_congr fun _ => exists_onPart_eq_error_with

theorem onPart_eq_ok {part : τ} {store : τ → σ} {edit : Edit ε τ α} {answer : α} {changed : σ} :
    onPart part store edit = .ok answer changed ↔
      ∃ inner, edit part = .ok answer inner ∧ changed = store inner := by
  unfold onPart
  cases edit part with
  | error fault inner => simp
  | ok found inner =>
    constructor
    · intro h
      obtain ⟨rfl, rfl⟩ := EStateM.Result.ok.inj h
      exact ⟨inner, rfl, rfl⟩
    · rintro ⟨old, hold, rfl⟩
      obtain ⟨rfl, rfl⟩ := EStateM.Result.ok.inj hold
      rfl

/-- An atomic edit of a part is atomic, if storing the old part back changes nothing. -/
theorem Atomic.onPart {edit : Edit ε τ α} (hedit : edit.Atomic) {part : τ} {store : τ → σ}
    {fault : ε} {changed : σ} (h : Edit.onPart part store edit = .error fault changed) :
    changed = store part := by
  obtain ⟨inner, he, rfl⟩ := onPart_eq_error h
  rw [hedit he]

theorem mapError_eq_error {f : ε → ε'} {edit : Edit ε σ α} {value : σ} {fault : ε'}
    {changed : σ} (h : mapError f edit value = .error fault changed) :
    ∃ cause, edit value = .error cause changed ∧ fault = f cause := by
  unfold mapError at h
  split at h
  next => simp at h
  next cause inner he =>
    obtain ⟨rfl, rfl⟩ := EStateM.Result.error.inj h
    exact ⟨cause, he, rfl⟩

theorem mapError_eq_ok {f : ε → ε'} {edit : Edit ε σ α} {value : σ} {answer : α} {changed : σ} :
    mapError f edit value = .ok answer changed ↔ edit value = .ok answer changed := by
  unfold mapError
  cases edit value <;> simp

theorem Atomic.mapError {edit : Edit ε σ α} (h : edit.Atomic) (f : ε → ε') :
    (Edit.mapError f edit).Atomic := by
  intro value fault changed he
  obtain ⟨cause, hc, -⟩ := mapError_eq_error he
  exact h hc

theorem bind_eq_ok {first : Edit ε σ α} {next : α → Edit ε σ β} {value : σ} {answer : β}
    {changed : σ} :
    (first >>= next) value = .ok answer changed ↔
      ∃ found between, first value = .ok found between ∧
        next found between = .ok answer changed := by
  change EStateM.bind first next value = _ ↔ _
  unfold EStateM.bind
  cases first value with
  | error cause between => simp
  | ok found between =>
    constructor
    · intro h
      exact ⟨found, between, rfl, h⟩
    · rintro ⟨_, _, hfirst, h⟩
      obtain ⟨rfl, rfl⟩ := EStateM.Result.ok.inj hfirst
      exact h

theorem bind_eq_error {first : Edit ε σ α} {next : α → Edit ε σ β} {value : σ} {fault : ε}
    {changed : σ} :
    (first >>= next) value = .error fault changed ↔
      first value = .error fault changed ∨
        ∃ found between, first value = .ok found between ∧
          next found between = .error fault changed := by
  change EStateM.bind first next value = _ ↔ _
  unfold EStateM.bind
  cases first value with
  | error cause between => simp
  | ok found between =>
    constructor
    · intro h
      exact .inr ⟨found, between, rfl, h⟩
    · rintro (hfirst | ⟨_, _, hfirst, h⟩)
      · simp at hfirst
      · obtain ⟨rfl, rfl⟩ := EStateM.Result.ok.inj hfirst
        exact h

theorem pure_eq_ok {answer found : α} {value changed : σ} :
    (pure found : Edit ε σ α) value = .ok answer changed ↔ found = answer ∧ value = changed := by
  change EStateM.Result.ok found value = _ ↔ _
  simp

theorem pure_ne_error {found : α} {value changed : σ} {fault : ε} :
    (pure found : Edit ε σ α) value ≠ .error fault changed := by
  change EStateM.Result.ok found value ≠ _
  simp

theorem exists_ok_eq_ok {answer : α} {value changed : σ} :
    (∃ found, (.ok answer value : EStateM.Result ε σ α) = .ok found changed) ↔ changed = value := by
  simp [eq_comm]

theorem throw_ne_ok {answer : α} {value changed : σ} {fault : ε} :
    (throw fault : Edit ε σ α) value ≠ .ok answer changed := by
  change EStateM.Result.error fault value ≠ _
  simp

/-- A run over a list fails at one item, after the items before it succeeded. -/
theorem forM_eq_error {step : β → Edit ε σ PUnit} {items : List β} {value : σ} {fault : ε}
    {changed : σ} (h : items.forM step value = .error fault changed) :
    ∃ done item later between, items = done ++ item :: later ∧
      done.forM step value = .ok ⟨⟩ between ∧ step item between = .error fault changed := by
  induction items generalizing value with
  | nil => exact absurd h pure_ne_error
  | cons first rest ih =>
    rcases bind_eq_error.1 h with hfirst | ⟨found, after, hfirst, hrest⟩
    · exact ⟨[], first, rest, value, rfl, rfl, hfirst⟩
    · obtain ⟨done, item, later, between, rfl, hdone, hitem⟩ := ih hrest
      exact ⟨first :: done, item, later, between, rfl, bind_eq_ok.2 ⟨found, after, hfirst, hdone⟩,
        hitem⟩

/-- A run over a list that counts its items, and counts none, makes no step. -/
theorem eq_of_forM_eq_ok_zero {step : β → Edit ε σ PUnit} {items : List β} {value changed : σ}
    (h : (do items.forM step; return items.length : Edit ε σ Nat) value = .ok 0 changed) :
    changed = value := by
  obtain ⟨_, between, hsteps, hcount⟩ := bind_eq_ok.1 h
  obtain ⟨hlength, rfl⟩ := pure_eq_ok.1 hcount
  have hnone : items = [] := List.length_eq_zero_iff.1 hlength
  subst hnone
  exact (pure_eq_ok.1 hsteps).2.symm

/-- An edit of each entry succeeds if and only if that of every value does. -/
theorem exists_eachEntry_eq_ok {edit : String → Edit ε τ Nat} {entries changed : Entries τ} :
    (∃ count, eachEntry edit entries = .ok count changed) ↔
      List.Forall₂ (fun old new => new.1 = old.1 ∧ ∃ count, edit old.1 old.2 = .ok count new.2)
        entries changed := by
  induction entries generalizing changed with
  | nil => simp [eachEntry, eq_comm]
  | cons entry rest ih =>
    obtain ⟨key, value⟩ := entry
    rw [List.forall₂_cons_left_iff]
    constructor
    · rintro ⟨count, h⟩
      simp only [eachEntry] at h
      split at h
      next => simp at h
      next found new hfirst =>
        split at h
        next => simp at h
        next others after hrest =>
          obtain ⟨-, rfl⟩ := EStateM.Result.ok.inj h
          exact ⟨(key, new), after, ⟨rfl, found, hfirst⟩, ih.1 ⟨others, hrest⟩, rfl⟩
    · rintro ⟨⟨_, new⟩, after, ⟨rfl, found, hfirst⟩, hrest, rfl⟩
      obtain ⟨others, hothers⟩ := ih.2 hrest
      exact ⟨found + others, by simp only [eachEntry, hfirst, hothers]⟩

/-- The value after an edit, whether it succeeded or failed. -/
def after (edit : Edit ε σ α) (value : σ) : σ :=
  match edit value with
  | .ok _ changed => changed
  | .error _ changed => changed

theorem after_of_eq_ok {edit : Edit ε σ α} {value changed : σ} {answer : α}
    (h : edit value = .ok answer changed) : edit.after value = changed := by
  rw [after, h]

theorem after_of_eq_error {edit : Edit ε σ α} {value changed : σ} {fault : ε}
    (h : edit value = .error fault changed) : edit.after value = changed := by
  rw [after, h]

/-- What an edit comes to, without the value that it leaves. -/
def outcome (edit : Edit ε σ α) (value : σ) : Except ε α :=
  match edit value with
  | .ok answer _ => .ok answer
  | .error fault _ => .error fault

section OnPart
variable {whole : Edit ε σ α} {edit : Edit ε τ α} {value : σ} {part : τ} {store : τ → σ}

/-- An edit of a part leaves the whole with what it leaves of the part. -/
theorem after_of_eq_onPart (h : whole value = onPart part store edit) :
    whole.after value = store (edit.after part) := by
  unfold after
  rw [h, onPart]
  cases edit part <;> rfl

theorem outcome_of_eq_onPart (h : whole value = onPart part store edit) :
    whole.outcome value = edit.outcome part := by
  unfold outcome
  rw [h, onPart]
  cases edit part <;> rfl

end OnPart
/-- An edit that does not change what `f` tells about a value, even if it fails. -/
def Keeps {γ : Type} (f : σ → γ) (edit : Edit ε σ α) : Prop :=
  ∀ value, f (edit.after value) = f value

section Keeps
variable {γ : Type} {f : σ → γ}

theorem keeps_pure (answer : α) : Keeps f (pure answer : Edit ε σ α) := fun _ => rfl

theorem keeps_throw (fault : ε) : Keeps f (throw fault : Edit ε σ α) := fun _ => rfl

theorem Keeps.mapError {edit : Edit ε σ α} (h : edit.Keeps f) (g : ε → ε') :
    (Edit.mapError g edit).Keeps f := by
  intro value
  have hvalue := h value
  unfold after Edit.mapError at *
  cases hedit : edit value <;> simpa [hedit] using hvalue

theorem Keeps.bind {first : Edit ε σ α} {next : α → Edit ε σ β} (hfirst : first.Keeps f)
    (hnext : ∀ answer, (next answer).Keeps f) : (first >>= next).Keeps f := by
  intro value
  have hvalue := hfirst value
  cases h : first value with
  | ok answer between =>
    rw [after_of_eq_ok h] at hvalue
    have hrun : (first >>= next) value = next answer between := by
      show EStateM.bind first next value = _
      rw [EStateM.bind, h]
    rw [after, hrun, ← hvalue]
    exact hnext answer between
  | error fault between =>
    rw [after_of_eq_error h] at hvalue
    rw [after_of_eq_error (bind_eq_error.2 (.inl h)), hvalue]

theorem Keeps.forM {step : β → Edit ε σ PUnit} {items : List β}
    (h : ∀ item ∈ items, (step item).Keeps f) : (items.forM step).Keeps f := by
  induction items with
  | nil => exact keeps_pure _
  | cons first rest ih =>
    obtain ⟨hfirst, hrest⟩ := List.forall_mem_cons.1 h
    exact hfirst.bind fun _ => ih hrest

end Keeps

end ApiTidy.Edit
