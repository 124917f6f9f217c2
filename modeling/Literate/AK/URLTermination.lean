import Literate.AK.URLParser
import Mathlib.Algebra.GroupWithZero.Nat

/-!
# AK: the loop of the URL parser ends

The states are ranked so that each transition to another state goes down, whether it
reads on, stays, starts again at the beginning or goes back by the length of the buffer.
A pass that stays in its state moves the iterator on.
-/

namespace Literate.AK.URLParser

open Foundation Option

/-- How many changes of state are ahead at most. -/
def State.rank : State → Nat
  | .schemeStart => 13
  | .scheme => 12
  | .noScheme => 11
  | .specialRelativeOrAuthority => 10
  | .relative => 9
  | .relativeSlash => 8
  | .specialAuthoritySlashes => 8
  | .specialAuthorityIgnoreSlashes => 7
  | .pathOrAuthority => 7
  | .authority => 6
  | .file => 6
  | .host => 5
  | .hostname => 5
  | .fileSlash => 5
  | .port => 4
  | .fileHost => 4
  | .pathStart => 3
  | .path => 2
  | .cannotBeABaseUrlPath => 2
  | .query => 1
  | .fragment => 0

theorem State.rank_le (state : State) : state.rank ≤ 13 := by cases state <;> decide

/-- A step stays in its state, at its place, and reads on, or goes down in rank. -/
def Moves (p : URLParser) : Step → Prop
  | .next p' => p'.state = p.state ∧ p'.position = p.position ∨ p'.state.rank < p.state.rank
  | .again p' => p'.state.rank < p.state.rank
  | .invalid => True
  | .abort => True

variable {input : List UInt8} {base : Option URL} {c : Nat} {p : URLParser}

theorem moves_orAbort {step : Option Step} (h : ∀ s ∈ step, Moves p s) :
    Moves p (orAbort step) := by
  cases step with
  | none => trivial
  | some s => exact h s rfl

variable {p' : URLParser}

theorem moves_ifRemainingStartsWithSlash {yes no : Step} (hyes : Moves p yes) (hno : Moves p no) :
    Moves p (ifRemainingStartsWithSlash input p' yes no) := by
  refine moves_orAbort fun s hs => ?_
  obtain ⟨remaining, -, hs⟩ := bind_eq_some_iff.mp hs
  cases hs
  split
  · exact hyes
  · exact hno

theorem moves_nextAfterIncrement (h : p'.state.rank < p.state.rank) :
    Moves p (nextAfterIncrement input p') := by
  refine moves_orAbort fun s hs => ?_
  obtain ⟨p'', hp'', rfl⟩ := map_eq_some_iff.mp hs
  rw [increment] at hp''
  split at hp''
  · cases hp''
    exact .inr h
  · cases hp''

theorem moves_withHost {isNotSpecial : Bool} {f : List UInt8 → Step}
    (h : ∀ host, Moves p (f host)) : Moves p (withHost isNotSpecial p' f) := by
  refine moves_orAbort fun s hs => ?_
  obtain ⟨host, -, rfl⟩ := map_eq_some_iff.mp hs
  cases host with
  | none => trivial
  | some host => exact h host

theorem moves_map_next {α : Type} {o : Option α} {f : α → URLParser}
    (h : ∀ a, Moves p (.next (f a))) : Moves p (orAbort (o.map fun a => .next (f a))) := by
  refine moves_orAbort fun s hs => ?_
  obtain ⟨a, -, rfl⟩ := map_eq_some_iff.mp hs
  exact h a

/-! ## The states -/

theorem moves_schemeStart (h : p.state = .schemeStart) : Moves p (schemeStart c p) := by
  rw [schemeStart]
  split <;> simp [Moves, State.rank, h]

theorem moves_schemeColon (h : p.state = .scheme) : Moves p (schemeColon input base p) := by
  rw [schemeColon]
  split
  · exact moves_map_next fun _ => by simp [Moves, State.rank, h]
  split
  · split <;> simp [Moves, State.rank, h]
  · refine moves_ifRemainingStartsWithSlash (moves_nextAfterIncrement ?_) ?_ <;>
      simp [Moves, State.rank, h]

theorem moves_scheme (h : p.state = .scheme) : Moves p (scheme input base c p) := by
  rw [scheme]
  split
  · simp [Moves]
  split
  · exact moves_schemeColon h
  · simp [Moves, State.rank, h]

theorem moves_noScheme (h : p.state = .noScheme) : Moves p (noScheme base c p) := by
  unfold noScheme
  split
  · trivial
  · split_ifs <;> simp [Moves, State.rank, h]

theorem moves_specialRelativeOrAuthority (h : p.state = .specialRelativeOrAuthority) :
    Moves p (specialRelativeOrAuthority input c p) := by
  rw [specialRelativeOrAuthority]
  split
  · refine moves_ifRemainingStartsWithSlash (moves_nextAfterIncrement ?_) ?_ <;>
      simp [Moves, State.rank, h]
  · simp [Moves, State.rank, h]

theorem moves_pathOrAuthority (h : p.state = .pathOrAuthority) : Moves p (pathOrAuthority c p) := by
  rw [pathOrAuthority]
  split <;> simp [Moves, State.rank, h]

theorem moves_relative (h : p.state = .relative) : Moves p (relative base c p) := by
  unfold relative
  cases base with
  | none => trivial
  | some base =>
    dsimp only
    split
    · simp [Moves, State.rank, h]
    split
    · simp [Moves, State.rank, h]
    split
    · simp [Moves, State.rank, h]
    split
    · simp [Moves, State.rank, h]
    split <;> simp [Moves, State.rank, h]

theorem moves_relativeSlash (h : p.state = .relativeSlash) : Moves p (relativeSlash base c p) := by
  unfold relativeSlash
  split
  · simp [Moves, State.rank, h]
  split
  · simp [Moves, State.rank, h]
  · split <;> simp [Moves, State.rank, h]

theorem moves_specialAuthoritySlashes (h : p.state = .specialAuthoritySlashes) :
    Moves p (specialAuthoritySlashes input c p) := by
  rw [specialAuthoritySlashes]
  split
  · refine moves_ifRemainingStartsWithSlash (moves_nextAfterIncrement ?_) ?_ <;>
      simp [Moves, State.rank, h]
  · simp [Moves, State.rank, h]

theorem moves_specialAuthorityIgnoreSlashes (h : p.state = .specialAuthorityIgnoreSlashes) :
    Moves p (specialAuthorityIgnoreSlashes c p) := by
  rw [specialAuthorityIgnoreSlashes]
  split <;> simp [Moves, State.rank, h]

/-- `Host` comes after `Authority`, wherever the iterator goes back to. -/
theorem moves_authority (h : p.state = .authority) : Moves p (authority input c p) := by
  rw [authority]
  split
  · simp [Moves, authorityAt, orAbort, Utf8View.codePoints]
  split
  · split
    · trivial
    · simp [Moves, State.rank, h]
  · simp [Moves]

theorem moves_host (h : p.state = .host ∨ p.state = .hostname) : Moves p (host c p) := by
  have hrank : State.port.rank < p.state.rank := by
    cases h with
    | inl h => rw [h]; decide
    | inr h => rw [h]; decide
  rw [host]
  split
  · split
    · trivial
    · exact moves_withHost fun _ => .inr hrank
  split
  · split
    · trivial
    · exact moves_withHost fun _ => hrank
  split
  · simp [Moves]
  split <;> simp [Moves]

theorem moves_port (h : p.state = .port) : Moves p (port c p) := by
  rw [port]
  split
  · simp [Moves]
  split
  · split
    · simp [Moves, State.rank, h]
    · split
      · trivial
      · split <;> simp [Moves, State.rank, h]
  · trivial

theorem moves_file (h : p.state = .file) : Moves p (file input base c p) := by
  unfold file
  split
  · simp [Moves, State.rank, h]
  split
  · simp [Moves]
  split
  · split
    · simp [Moves, State.rank, h]
    split
    · simp [Moves, State.rank, h]
    split
    · refine moves_orAbort fun s hs => ?_
      obtain ⟨substring, -, hs⟩ := bind_eq_some_iff.mp hs
      cases hs
      simp [Moves, State.rank, h]
    · simp [Moves]
  · simp [Moves]

theorem moves_fileSlash (h : p.state = .fileSlash) : Moves p (fileSlash input base c p) := by
  unfold fileSlash
  split
  · simp [Moves, State.rank, h]
  split
  · simp [Moves]
  split
  · refine moves_orAbort fun s hs => ?_
    obtain ⟨substring, -, hs⟩ := bind_eq_some_iff.mp hs
    split at hs
    · cases hs
      simp [Moves, State.rank, h]
    · obtain ⟨first, -, hs⟩ := bind_eq_some_iff.mp hs
      cases hs
      simp [Moves, State.rank, h]
  · simp [Moves]

theorem moves_fileHost (h : p.state = .fileHost) : Moves p (fileHost c p) := by
  rw [fileHost]
  split
  · split
    · simp [Moves, State.rank, h]
    split
    · simp [Moves, State.rank, h]
    · exact moves_withHost fun _ => by simp [Moves, State.rank, h]
  · simp [Moves]

theorem moves_pathStart (h : p.state = .pathStart) : Moves p (pathStart c p) := by
  rw [pathStart]
  split_ifs <;> simp [Moves, State.rank, h]

theorem moves_path (h : p.state = .path) : Moves p (path c p) := by
  rw [path]
  split
  · split
    · simp [Moves, State.rank, h]
    · split <;> simp [Moves, State.rank, h]
  · exact moves_map_next fun _ => by simp [Moves]

theorem moves_cannotBeABaseUrlPath (h : p.state = .cannotBeABaseUrlPath) :
    Moves p (cannotBeABaseUrlPath c p) := by
  rw [cannotBeABaseUrlPath]
  split
  · split
    · simp [Moves, State.rank, h]
    split
    · simp [Moves, State.rank, h]
    split
    · exact moves_map_next fun _ => by simp [Moves]
    · simp [Moves]
  · trivial

theorem moves_query (h : p.state = .query) : Moves p (query c p) := by
  unfold query
  by_cases hend : c = endOfFile ∨ isChar c '#'
  · rw [if_pos hend]
    split
    · by_cases hhash : isChar c '#' <;> simp [Moves, State.rank, h, hhash]
    · trivial
  · rw [if_neg hend]
    simp [Moves]

theorem moves_fragment : Moves p (fragment c p) := by
  rw [fragment]
  split <;> simp [Moves]

theorem moves_step (input : List UInt8) (base : Option URL) (p : URLParser) :
    Moves p (step input base p) := by
  rw [step]
  split
  case h_1 h => exact moves_schemeStart h
  case h_2 h => exact moves_scheme h
  case h_3 h => exact moves_noScheme h
  case h_4 h => exact moves_specialRelativeOrAuthority h
  case h_5 h => exact moves_pathOrAuthority h
  case h_6 h => exact moves_relative h
  case h_7 h => exact moves_relativeSlash h
  case h_8 h => exact moves_specialAuthoritySlashes h
  case h_9 h => exact moves_specialAuthorityIgnoreSlashes h
  case h_10 h => exact moves_authority h
  case h_11 h => exact moves_host (.inl h)
  case h_12 h => exact moves_host (.inr h)
  case h_13 h => exact moves_port h
  case h_14 h => exact moves_file h
  case h_15 h => exact moves_fileSlash h
  case h_16 h => exact moves_fileHost h
  case h_17 h => exact moves_pathStart h
  case h_18 h => exact moves_path h
  case h_19 h => exact moves_cannotBeABaseUrlPath h
  case h_20 h => exact moves_query h
  case h_21 => exact moves_fragment

/-! ## The loop -/

/-- The rank first, then what is left of the input. -/
def measure (input : List UInt8) (p : URLParser) : Nat :=
  p.state.rank * (input.length + 1) + (input.length - p.position)

theorem measure_lt_of_rank (h : p'.state.rank < p.state.rank) :
    measure input p' < measure input p := by
  have hmul : (p'.state.rank + 1) * (input.length + 1) ≤ p.state.rank * (input.length + 1) :=
    Nat.mul_le_mul_right _ h
  rw [Nat.succ_mul] at hmul
  simp only [measure]
  omega

theorem measure_lt_passes (input : List UInt8) (p : URLParser) :
    measure input p < passes input := by
  have hmul := Nat.mul_le_mul_right (input.length + 1) p.state.rank_le
  rw [measure, passes]
  omega

theorem measure_lt_of_pass (h : pass input base p = .next p') :
    measure input p' < measure input p := by
  have hmoves := moves_step input base p
  rw [pass] at h
  split at h
  · next p'' hstep =>
    rw [hstep] at hmoves
    split at h
    · cases h
    · next hmore =>
      cases h
      cases hmoves with
      | inl hstay =>
        simp only [measure]
        simp only [hstay.1, hstay.2] at hmore ⊢
        omega
      | inr hrank => exact measure_lt_of_rank hrank
  · next p'' hstep =>
    rw [hstep] at hmoves
    cases h
    exact measure_lt_of_rank hmoves
  · cases h
  · cases h

/-- From whatever local variables it begins, the loop ends after at most `14 * (n + 1)`
passes on an input of `n` bytes. -/
theorem runFor_passes (input : List UInt8) (base : Option URL) (p : URLParser) :
    ∃ r, runFor (pass input base) (passes input) p = some r :=
  runFor_of_measure (fun _ _ => measure_lt_of_pass) (measure_lt_passes input p)

theorem pass_ne_running {r : Result} (h : pass input base p = .done r) : r ≠ .running := by
  rw [pass] at h
  split at h
  · split at h <;> cases h
    exact Result.noConfusion
  all_goals cases h
  all_goals exact Result.noConfusion

theorem mainLoop_ne_running (input : List UInt8) (base : Option URL) (p : URLParser) :
    mainLoop input base p ≠ .running := by
  obtain ⟨r, hrun⟩ := runFor_passes input base p
  obtain ⟨t, -, hdone⟩ := exists_visits_of_runFor hrun
  rw [mainLoop, hrun]
  exact pass_ne_running hdone

/-- For every input, base URL, given URL and state override the loop of `parse` ends,
within `14 * (n + 1)` passes on `n` bytes, so that `parse` does not run on. -/
theorem parse_ends (rawInput input : List UInt8) (base url : Option URL)
    (stateOverride : Option State) :
    (∃ r, runFor (pass input base) (14 * (input.length + 1)) (start url stateOverride) = some r ∧
      r ≠ .running) ∧
    parse rawInput base url stateOverride ≠ .running := by
  constructor
  · obtain ⟨r, hrun⟩ := runFor_passes input base (start url stateOverride)
    obtain ⟨t, -, hdone⟩ := exists_visits_of_runFor hrun
    exact ⟨r, hrun, pass_ne_running hdone⟩
  · rw [parse]
    split_ifs
    · exact Result.noConfusion
    · split <;> exact Result.noConfusion
    · split
      · exact Result.noConfusion
      · exact mainLoop_ne_running _ _ _

end Literate.AK.URLParser
