import Memwatch.Shell.Iterations

/-!
# The limit of a history

`search` keeps the newest `max_search_iterations` iterations. The number of iterations
to erase is the difference of two unsigned numbers in a signed one: a limit that is far
above the number of iterations stands for an erasure past the end.
-/

namespace Memwatch

namespace MemwatchShell

open Lib Text

section

variable {searches searches' old : List MemorySearch} {count : Nat}

/-- The number of iterations to erase fits into a signed number. -/
def DifferenceFits (n count : Nat) : Prop :=
  -2 ^ 63 ≤ (n : Int) - count ∧ (n : Int) - count < 2 ^ 63

instance (n count : Nat) : Decidable (DifferenceFits n count) := inferInstanceAs (Decidable (_ ∧ _))

theorem retain_of_fits (h : DifferenceFits searches.length count) :
    retain searches count = .ok (searches.rtake (min searches.length count)) := by
  have hdiff : (BitVec.ofNat 64 searches.length - BitVec.ofNat 64 count).toInt =
      (searches.length : Int) - count := by
    rw [numToDelete_eq]
    exact Int.bmod_eq_of_le h.1 h.2
  unfold retain List.rtake
  dsimp only
  rw [hdiff]
  split
  · next hpos =>
    rw [if_pos (by omega), show searches.length - min searches.length count =
      ((searches.length : Int) - count).toNat by omega]
  · next hpos => rw [show searches.length - min searches.length count = 0 by omega, List.drop_zero]

/-- A difference that does not fit wraps around: the erasure goes past the end, or too many
iterations stay. -/
theorem length_ne_of_not_fits (h : ¬ DifferenceFits searches.length count) (hlt : count < 2 ^ 64)
    (hretain : retain searches count = .ok searches') :
    searches'.length ≠ min searches.length count := by
  unfold DifferenceFits at h
  unfold retain at hretain
  simp only [numToDelete_eq, Int.bmod_def] at hretain
  generalize hd : (if ((searches.length : Int) - count) % (2 ^ 64 : Nat) < ((2 ^ 64 : Nat) + 1) / 2
    then ((searches.length : Int) - count) % (2 ^ 64 : Nat)
    else ((searches.length : Int) - count) % (2 ^ 64 : Nat) - (2 ^ 64 : Nat)) = d at hretain
  have hne : d ≠ (searches.length : Int) - count := by split at hd <;> omega
  have hwrap : (searches.length : Int) - count < -2 ^ 63 → 0 < d := by split at hd <;> omega
  split at hretain
  · split at hretain
    · obtain rfl := Except.ok.inj hretain
      rw [List.length_drop]
      omega
    · cases hretain
  · obtain rfl := Except.ok.inj hretain
    omega

theorem retain_exact_iff (hlt : count < 2 ^ 64) :
    retain searches count = .ok (searches.rtake (min searches.length count)) ↔
      DifferenceFits searches.length count := by
  refine ⟨fun heq => ?_, retain_of_fits⟩
  by_contra hfits
  refine length_ne_of_not_fits hfits hlt heq ?_
  rw [List.rtake, List.length_drop]
  omega

end

section

variable [Phosg] [PhosgText] [FloatText] {st : MemwatchShell} {target : Target}
  {argsStr name : String} {newSearch : MemorySearch} {old : List MemorySearch}

/-- A search leaves the newest iterations up to the limit iff the difference of the number
of iterations and the limit fits into a signed number. -/
theorem history_trimmed_iff (hi : st.interactive = true)
    (hnew : newIteration st target argsStr = .ok (name, newSearch))
    (hfind : st.nameToSearches.find? name = some old) :
    commandSearch target argsStr st = .ok () (st.setSearches name
        ((old ++ [newSearch]).rtake (min (old.length + 1) st.maxSearchIterations.toNat))) ↔
      DifferenceFits (old.length + 1) st.maxSearchIterations.toNat := by
  have hadds : Adds target st (.search argsStr) st argsStr name newSearch old :=
    ⟨.search argsStr, hnew, hfind⟩
  have hlen : (old ++ [newSearch]).length = old.length + 1 := List.length_append
  rw [hadds.commandSearch_eq hi, lift_bind_eq_ok, ← hlen,
    ← retain_exact_iff st.maxSearchIterations.toNat_lt]
  constructor
  · rintro ⟨kept, hkept, hset⟩
    have hsame := congrArg (fun st : MemwatchShell => st.nameToSearches.find? name)
      (set_eq_ok.mp hset)
    simp only [find?_setSearches, if_pos] at hsame
    rw [hkept, Option.some.inj hsame]
  · exact fun hretain => ⟨_, hretain, set_eq_ok.mpr rfl⟩

end

section

open Plain

def openShell (maxSearchIterations : UInt64) : MemwatchShell :=
  (new "target" 10 maxSearchIterations false true false).openNew .uint8 false "a"

/-- The iteration an initial search of all memory adds. -/
def allIteration : MemorySearch :=
  { MemorySearch.new .uint8 false with memory := some [], annotation := ". previous at now" }

theorem newIteration_openShell (maxSearchIterations : UInt64) :
    newIteration (openShell maxSearchIterations) idleTarget "." = .ok ("a", allIteration) := by
  rfl

theorem history_trimmed_one :
    commandSearch idleTarget "." (openShell 1) = .ok () ((openShell 1).setSearches "a"
        (([MemorySearch.new .uint8 false] ++ [allIteration]).rtake
          (min ([MemorySearch.new .uint8 false].length + 1)
            (openShell 1).maxSearchIterations.toNat))) ↔
      DifferenceFits ([MemorySearch.new .uint8 false].length + 1)
        (openShell 1).maxSearchIterations.toNat :=
  history_trimmed_iff rfl (newIteration_openShell 1) rfl

/-- The largest limit, which `-1` stands for too. -/
theorem history_unlimited :
    commandSearch idleTarget "." (openShell 18446744073709551615) ≠
      .ok () ((openShell 18446744073709551615).setSearches "a"
        (([MemorySearch.new .uint8 false] ++ [allIteration]).rtake
          (min 2 (openShell 18446744073709551615).maxSearchIterations.toNat))) := by
  intro heq
  have hadds : Adds idleTarget (openShell 18446744073709551615) (.search ".")
      (openShell 18446744073709551615) "." "a" allIteration [MemorySearch.new .uint8 false] :=
    ⟨.search ".", newIteration_openShell _, rfl⟩
  have hretain : retain ([MemorySearch.new .uint8 false] ++ [allIteration])
      (openShell 18446744073709551615).maxSearchIterations.toNat = .error .badErase := by decide
  rw [hadds.commandSearch_eq rfl, lift_bind_eq_ok, hretain] at heq
  obtain ⟨kept, hkept, -⟩ := heq
  cases hkept

end

end MemwatchShell
end Memwatch
