import ApiTidy.Proofs.Except
import ApiTidy.Yaml.Token.Lexer

/-!
The first token stays first. Marks of keys and of block collections are inserted before tokens that
were read earlier, but never before the first one, once no key can start there any more.
-/
namespace ApiTidy.Yaml

theorem KeyStart.mem_of_refresh {p : Position} {remembered kept : Option KeyStart}
    (h : refresh p remembered = .ok kept) {start : KeyStart} (hstart : start ∈ kept) :
    start ∈ remembered := by
  cases remembered with
  | none => rwa [← Except.ok.inj h] at hstart
  | some found =>
    rw [refresh] at h
    split at h
    next => rwa [← Except.ok.inj h] at hstart
    next =>
      split at h
      next => cases h
      next =>
        rw [← Except.ok.inj h] at hstart
        cases hstart

namespace Lexer
variable {s t : Lexer} {first : Token}

/-- The first token, and that it starts no key. -/
structure OpensWith (first : Token) (s : Lexer) : Prop where
  tokens : s.tokens[0]? = some first
  keys : ∀ remembered ∈ s.keyStart :: s.outer, ∀ start ∈ remembered, 0 < start.index

namespace OpensWith

theorem size_pos (h : s.OpensWith first) : 0 < s.tokens.size :=
  (Array.getElem?_eq_some_iff.1 h.tokens).1

/-- Only the tokens and the remembered keys matter. -/
theorem of_eq (h : s.OpensWith first) (htokens : t.tokens = s.tokens)
    (hkey : t.keyStart = s.keyStart) (houter : t.outer = s.outer) : t.OpensWith first :=
  ⟨htokens ▸ h.tokens, by rw [hkey, houter]; exact h.keys⟩

theorem forget (h : s.OpensWith first) : ({ s with keyStart := none } : Lexer).OpensWith first := by
  refine ⟨h.tokens, fun remembered hmem => ?_⟩
  rcases List.mem_cons.1 hmem with rfl | hmem
  · simp
  · exact h.keys remembered (List.mem_cons_of_mem _ hmem)

theorem push (h : s.OpensWith first) (token : Token) (cursor : Cursor) (keyAllowed : Bool) :
    (s.push token cursor keyAllowed).OpensWith first := by
  refine ⟨?_, h.keys⟩
  rw [Lexer.push, Array.getElem?_push_lt h.size_pos, ← Array.getElem?_eq_getElem h.size_pos]
  exact h.tokens

theorem insert (h : s.OpensWith first) {index : Nat} (hindex : 0 < index) (token : Token) :
    (s.tokens.insertIdxIfInBounds index token)[0]? = some first := by
  unfold Array.insertIdxIfInBounds
  split
  next hbound => rw [Array.getElem?_insertIdx_of_lt _ hindex]; exact h.tokens
  next => exact h.tokens

theorem openBlock (h : s.OpensWith first) {column index : Nat} (hindex : 0 < index)
    (token : Token) : (s.openBlock column index token).OpensWith first := by
  unfold Lexer.openBlock
  split
  next => exact h
  next => exact ⟨h.insert hindex token, h.keys⟩

theorem closeBlocks (h : s.OpensWith first) (column : Nat) :
    (s.closeBlocks column).OpensWith first := by
  unfold Lexer.closeBlocks
  split
  next => exact h
  next => exact ⟨by rw [Array.getElem?_append_left h.size_pos]; exact h.tokens, h.keys⟩

theorem forgetKey (h : s.OpensWith first) (ht : s.forgetKey = .ok t) : t.OpensWith first := by
  unfold Lexer.forgetKey at ht
  split at ht
  next => cases ht
  next => exact Except.ok.inj ht ▸ h.forget

theorem rememberKey (h : s.OpensWith first) (ht : s.rememberKey = .ok t) : t.OpensWith first := by
  unfold Lexer.rememberKey at ht
  split at ht
  next => exact Except.ok.inj ht ▸ h
  next =>
    obtain ⟨free, hfree, rfl⟩ := Except.map_eq_ok.1 ht
    have hkept := h.forgetKey hfree
    refine ⟨hkept.tokens, fun remembered hmem start hstart => ?_⟩
    rcases List.mem_cons.1 hmem with rfl | hmem
    · rw [← Option.some.inj hstart]
      exact hkept.size_pos
    · exact hkept.keys remembered (List.mem_cons_of_mem _ hmem) start hstart

theorem refreshKeys (h : s.OpensWith first) (ht : s.refreshKeys = .ok t) : t.OpensWith first := by
  obtain ⟨key, hkey, hlater⟩ := Except.bind_eq_ok.1 ht
  obtain ⟨outer, houter, hpure⟩ := Except.bind_eq_ok.1 hlater
  rw [← Except.pure_eq_ok.1 hpure]
  refine ⟨h.tokens, fun kept hmem start hstart => ?_⟩
  rcases List.mem_cons.1 hmem with rfl | hmem
  · exact h.keys _ List.mem_cons_self start (KeyStart.mem_of_refresh hkey hstart)
  · obtain ⟨remembered, hmember, hrefresh⟩ := Except.mem_of_mapM_eq_ok houter hmem
    exact h.keys remembered (List.mem_cons_of_mem _ hmember) start
      (KeyStart.mem_of_refresh hrefresh hstart)

theorem toToken (h : s.OpensWith first) (ht : s.toToken = .ok t) : t.OpensWith first := by
  obtain ⟨fresh, hfresh, rfl⟩ := Except.map_eq_ok.1 ht
  refine (OpensWith.refreshKeys ?_ hfresh).closeBlocks _
  exact h.of_eq rfl rfl rfl

theorem leaveBlocks (h : s.OpensWith first) (ht : s.leaveBlocks = .ok t) : t.OpensWith first :=
  (h.closeBlocks 0).forgetKey ht

/-- A token is read from a prepared state and added at the end. -/
theorem read {α : Type} {prepare : Except Fault Lexer} {scan : Lexer → Except Fault α}
    {token : α → Token} {cursor : α → Cursor} {keyAllowed : α → Bool}
    (hprepare : ∀ {s}, prepare = .ok s → s.OpensWith first)
    (ht : (do
      let s ← prepare
      let found ← scan s
      return s.push (token found) (cursor found) (keyAllowed found)) = .ok t) :
    t.OpensWith first := by
  obtain ⟨ready, hready, hlater⟩ := Except.bind_eq_ok.1 ht
  obtain ⟨found, -, hpure⟩ := Except.bind_eq_ok.1 hlater
  rw [← Except.pure_eq_ok.1 hpure]
  exact (hprepare hready).push _ _ _

/-- An indicator is added at the end of a prepared state. -/
theorem indicate {prepare : Except Fault Lexer} {token : Token} {length : Nat}
    {keyAllowed : Lexer → Bool} (hprepare : ∀ {s}, prepare = .ok s → s.OpensWith first)
    (ht : (do
      let s ← prepare
      return s.pushIndicator token length (keyAllowed s)) = .ok t) : t.OpensWith first := by
  obtain ⟨ready, hready, hpure⟩ := Except.bind_eq_ok.1 ht
  rw [← Except.pure_eq_ok.1 hpure]
  exact (hprepare hready).push _ _ _

theorem openFlow (h : s.OpensWith first) {token : Token} (ht : s.openFlow token = .ok t) :
    t.OpensWith first := by
  obtain ⟨ready, hready, hpure⟩ := Except.bind_eq_ok.1 ht
  rw [← Except.pure_eq_ok.1 hpure]
  have hpushed := (h.rememberKey hready).push token (ready.cursor.forward 1) true
  refine ⟨hpushed.tokens, fun remembered hmem => ?_⟩
  rcases List.mem_cons.1 hmem with rfl | hmem
  · simp
  · exact hpushed.keys remembered hmem

theorem closeFlow (h : s.OpensWith first) {token : Token} (ht : s.closeFlow token = .ok t) :
    t.OpensWith first := by
  obtain ⟨free, hfree, hlater⟩ := Except.bind_eq_ok.1 ht
  have hpushed : (free.pushIndicator token 1 false).OpensWith first :=
    (h.forgetKey hfree).push _ _ _
  simp only at hlater
  split at hlater
  next =>
    rw [← Except.pure_eq_ok.1 hlater]
    exact hpushed
  next houter =>
    rw [← Except.pure_eq_ok.1 hlater]
    refine ⟨hpushed.tokens, fun remembered hmem => hpushed.keys remembered ?_⟩
    rw [houter]
    exact List.mem_cons_of_mem _ hmem

theorem readBlockEntry (h : s.OpensWith first) (ht : s.readBlockEntry = .ok t) :
    t.OpensWith first := by
  unfold Lexer.readBlockEntry at ht
  split at ht
  next => cases ht
  next => exact indicate (h.openBlock h.size_pos _).forgetKey ht

theorem readKey (h : s.OpensWith first) (ht : s.readKey = .ok t) : t.OpensWith first := by
  unfold Lexer.readKey at ht
  split at ht
  next => cases ht
  next => exact indicate (h.openBlock h.size_pos _).forgetKey ht

theorem readValue (h : s.OpensWith first) (ht : s.readValue = .ok t) : t.OpensWith first := by
  unfold Lexer.readValue at ht
  split at ht
  next start hstart =>
    rw [← Except.ok.inj ht]
    have hindex : 0 < start.index := h.keys s.keyStart List.mem_cons_self start hstart
    have hmarked : OpensWith first { s with
        keyStart := none
        tokens := s.tokens.insertIdxIfInBounds start.index .key } :=
      ⟨h.insert hindex .key, h.forget.keys⟩
    exact (hmarked.openBlock hindex _).push _ _ _
  next =>
    split at ht
    next => cases ht
    next =>
      rw [← Except.ok.inj ht]
      exact (h.openBlock h.size_pos _).push _ _ _

theorem readToken (h : s.OpensWith first) {c : Char} {rest : List Char}
    (ht : s.readToken c rest = .ok t) : t.OpensWith first := by
  have hplain : ∀ {t}, s.readPlain = .ok t → t.OpensWith first := read h.rememberKey
  have hblock : ∀ {style t}, s.readBlockScalar style = .ok t → t.OpensWith first :=
    read h.forgetKey
  unfold Lexer.readToken at ht
  split at ht
  next => exact h.openFlow ht
  next => exact h.openFlow ht
  next => exact h.closeFlow ht
  next => exact h.closeFlow ht
  next => exact indicate h.forgetKey ht
  next =>
    split at ht
    next => exact h.readBlockEntry ht
    next => exact hplain ht
  next =>
    split at ht
    next => exact h.readKey ht
    next => exact hplain ht
  next =>
    split at ht
    next => exact h.readValue ht
    next => exact hplain ht
  next => exact read h.rememberKey ht
  next => exact read h.rememberKey ht
  next => exact read h.rememberKey ht
  next =>
    split at ht
    next => cases ht
    next => exact hblock ht
  next =>
    split at ht
    next => cases ht
    next => exact hblock ht
  next => exact read h.rememberKey ht
  next => exact read h.rememberKey ht
  next =>
    split at ht
    next => cases ht
    next => exact hplain ht

theorem step (h : s.OpensWith first) (ht : s.step = .ok t) : t.OpensWith first := by
  unfold Lexer.step at ht
  split at ht
  next => exact Except.ok.inj ht ▸ h
  next =>
    split at ht
    next => exact read h.leaveBlocks ht
    next =>
      split at ht
      next => exact indicate h.leaveBlocks ht
      next => exact h.readToken ht

end OpensWith

/-- One turn of the loop: at the end of the text the tokens are complete, before it one is read. -/
theorem run_succ_eq_ok {fuel : Nat} {found : Array Token} (h : run (fuel + 1) s = .ok found) :
    ∃ next, s.toToken = .ok next ∧
      ((next.cursor.rest = [] ∧
        ∃ ended, next.leaveBlocks = .ok ended ∧ ended.tokens.push .streamEnd = found) ∨
      (next.cursor.rest ≠ [] ∧ ∃ later, next.step = .ok later ∧ run fuel later = .ok found)) := by
  obtain ⟨next, hnext, hrest⟩ := Except.bind_eq_ok.1 h
  refine ⟨next, hnext, ?_⟩
  split at hrest
  next hend =>
    obtain ⟨ended, hended, hpure⟩ := Except.bind_eq_ok.1 hrest
    exact .inl ⟨List.isEmpty_iff.1 hend, ended, hended, Except.pure_eq_ok.1 hpure⟩
  next hend =>
    obtain ⟨later, hlater, hrun⟩ := Except.bind_eq_ok.1 hrest
    exact .inr ⟨fun hnil => hend (List.isEmpty_iff.2 hnil), later, hlater, hrun⟩

/-- However the reading goes on, the first token stays the first. -/
theorem OpensWith.run {fuel : Nat} {found : Array Token} (h : s.OpensWith first)
    (hfound : run fuel s = .ok found) : found[0]? = some first := by
  induction fuel generalizing s with
  | zero => cases hfound
  | succ fuel ih =>
    obtain ⟨next, hnext, ⟨-, ended, hended, rfl⟩ | ⟨-, later, hlater, hrun⟩⟩ :=
      run_succ_eq_ok hfound
    · have hclosed := (h.toToken hnext).leaveBlocks hended
      rw [Array.getElem?_push_lt hclosed.size_pos, ← Array.getElem?_eq_getElem hclosed.size_pos]
      exact hclosed.tokens
    · exact ih ((h.toToken hnext).step hlater) hrun

end Lexer
end ApiTidy.Yaml
