/-! Computations that may fail: what follows from the success of a sequence of them. -/
namespace ApiTidy.Except
variable {ε α β : Type}

theorem bind_eq_ok {first : Except ε α} {next : α → Except ε β} {answer : β} :
    (first >>= next) = .ok answer ↔ ∃ found, first = .ok found ∧ next found = .ok answer := by
  cases first with
  | error fault => exact ⟨fun h => (by cases h), fun ⟨_, hfirst, _⟩ => (by cases hfirst)⟩
  | ok found =>
    constructor
    · exact fun h => ⟨found, rfl, h⟩
    · rintro ⟨_, hfirst, hnext⟩
      cases hfirst
      exact hnext

theorem bind_eq_error {first : Except ε α} {next : α → Except ε β} {fault : ε} :
    (first >>= next) = .error fault ↔
      first = .error fault ∨ ∃ found, first = .ok found ∧ next found = .error fault := by
  cases first with
  | error cause =>
    constructor
    · exact fun h => .inl (congrArg Except.error (Except.error.inj h))
    · rintro (h | ⟨_, h, -⟩)
      · exact congrArg Except.error (Except.error.inj h)
      · cases h
  | ok found =>
    constructor
    · exact fun h => .inr ⟨found, rfl, h⟩
    · rintro (h | ⟨_, h, hnext⟩)
      · cases h
      · obtain rfl := Except.ok.inj h
        exact hnext

/-- A check, and what follows it. -/
theorem bind_unit_eq_ok {first : Except ε Unit} {next : Unit → Except ε β} {answer : β} :
    (first >>= next) = .ok answer ↔ first = .ok () ∧ next () = .ok answer :=
  bind_eq_ok.trans ⟨fun ⟨_, h⟩ => h, fun h => ⟨(), h⟩⟩

theorem map_eq_ok {first : Except ε α} {f : α → β} {answer : β} :
    first.map f = .ok answer ↔ ∃ found, first = .ok found ∧ f found = answer := by
  cases first <;> simp [Except.map]

theorem pure_eq_ok {found answer : α} :
    (pure found : Except ε α) = .ok answer ↔ found = answer := by
  constructor
  · exact fun h => Except.ok.inj h
  · rintro rfl
    rfl

theorem toOption_eq_some {result : Except ε α} {answer : α} :
    result.toOption = some answer ↔ result = .ok answer := by
  cases result <;> simp [Except.toOption]

theorem toOption_eq_none {result : Except ε α} :
    result.toOption = none ↔ ∃ fault, result = .error fault := by
  cases result <;> simp [Except.toOption]

/-- Whatever a pass over a list yields comes from one of its members. -/
theorem mem_of_mapM_eq_ok {f : α → Except ε β} {items : List α} {answers : List β}
    (h : items.mapM f = .ok answers) {answer : β} (hmem : answer ∈ answers) :
    ∃ item ∈ items, f item = .ok answer := by
  induction items generalizing answers with
  | nil =>
    rw [List.mapM_nil, pure_eq_ok] at h
    simp [← h] at hmem
  | cons item rest ih =>
    rw [List.mapM_cons] at h
    obtain ⟨first, hfirst, hlater⟩ := bind_eq_ok.1 h
    obtain ⟨others, hothers, hpure⟩ := bind_eq_ok.1 hlater
    rw [← pure_eq_ok.1 hpure] at hmem
    rcases List.mem_cons.1 hmem with rfl | hmem
    · exact ⟨item, List.mem_cons_self, hfirst⟩
    · obtain ⟨found, hfound, hanswer⟩ := ih hothers hmem
      exact ⟨found, List.mem_cons_of_mem _ hfound, hanswer⟩

end ApiTidy.Except
