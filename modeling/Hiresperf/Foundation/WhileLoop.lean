import Mathlib.Data.Nat.Find
import Mathlib.Data.Set.Finite.Basic
import Mathlib.Logic.Function.Iterate
import Mathlib.Tactic.SplitIfs

/-!
# While loops

A loop that tests its state before every turn, run with fuel. It returns exactly
if some number of turns leads to a state in which it stops, and then it returns
the first such state. Where only finitely many states can come, it fails to return
exactly if it comes back to one of them first.
-/

namespace WhileLoop

universe u
variable {S : Type u} (stops : S → Bool) (body : S → S)

def run : Nat → S → Option S
  | 0, _ => none
  | fuel + 1, s => if stops s then some s else run fuel (body s)

/-- The loop stops after `n` turns and not before. -/
structure StopsAfter (s : S) (n : Nat) : Prop where
  stop : stops (body^[n] s) = true
  going : ∀ m, m < n → stops (body^[m] s) = false

/-- A state comes again before the loop stops. -/
def Cycles (s : S) : Prop :=
  ∃ i j, i < j ∧ body^[i] s = body^[j] s ∧ ∀ m, m < j → stops (body^[m] s) = false

variable {stops body}

theorem run_eq_some {s : S} {n fuel : Nat} (h : StopsAfter stops body s n) (hfuel : n < fuel) :
    run stops body fuel s = some (body^[n] s) := by
  induction n generalizing s fuel with
  | zero =>
    obtain ⟨k, rfl⟩ : ∃ k, fuel = k + 1 := ⟨fuel - 1, by omega⟩
    exact if_pos h.stop
  | succ n ih =>
    obtain ⟨k, rfl⟩ : ∃ k, fuel = k + 1 := ⟨fuel - 1, by omega⟩
    have hfirst : ¬ stops s = true := by
      have hgoing := h.going 0 (Nat.succ_pos n)
      simpa using hgoing
    rw [run, if_neg hfirst]
    exact ih ⟨h.stop, fun m hm => h.going (m + 1) (Nat.succ_lt_succ hm)⟩ (by omega)

theorem stopsAfter_of_run {s r : S} {fuel : Nat} (h : run stops body fuel s = some r) :
    ∃ n, n < fuel ∧ StopsAfter stops body s n ∧ r = body^[n] s := by
  induction fuel generalizing s with
  | zero => cases h
  | succ fuel ih =>
    rw [run] at h
    split_ifs at h with hstop
    · exact ⟨0, Nat.succ_pos fuel, ⟨hstop, fun m hm => absurd hm (Nat.not_lt_zero m)⟩,
        (Option.some.inj h).symm⟩
    · obtain ⟨n, hn, hafter, hr⟩ := ih h
      refine ⟨n + 1, Nat.succ_lt_succ hn, ⟨hafter.stop, fun m hm => ?_⟩, hr⟩
      cases m with
      | zero => simpa using hstop
      | succ m => exact hafter.going m (Nat.lt_of_succ_lt_succ hm)

theorem stopsAfter_unique {s : S} {m n : Nat} (hm : StopsAfter stops body s m)
    (hn : StopsAfter stops body s n) : m = n := by
  rcases Nat.lt_trichotomy m n with hlt | heq | hgt
  · exact absurd hm.stop (by simp [hn.going m hlt])
  · exact heq
  · exact absurd hn.stop (by simp [hm.going n hgt])

theorem exists_stopsAfter {s : S} (h : ∃ n, stops (body^[n] s) = true) :
    ∃ n, StopsAfter stops body s n := by
  refine ⟨Nat.find h, Nat.find_spec h, fun m hm => ?_⟩
  rw [← Bool.not_eq_true]
  exact Nat.find_min h hm

theorem Cycles.never_stops {s : S} (h : Cycles stops body s) (n : Nat) :
    stops (body^[n] s) = false := by
  obtain ⟨i, j, hij, hagain, hgoing⟩ := h
  induction n using Nat.strongRecOn with
  | ind n ih =>
    by_cases hn : n < j
    · exact hgoing n hn
    -- a turn after the second visit is one after the first
    · have hback : body^[n] s = body^[n - j + i] s := by
        have hn' : n = n - j + j := by omega
        rw [Function.iterate_add_apply, hagain, ← Function.iterate_add_apply, ← hn']
      rw [hback]
      exact ih _ (by omega)

theorem cycles_of_never_stops {s : S} (hfinite : (Set.range fun n => body^[n] s).Finite)
    (h : ∀ n, stops (body^[n] s) = false) : Cycles stops body s := by
  have hrepeats : ¬ Function.Injective fun n => body^[n] s := fun hinj =>
    Set.infinite_range_of_injective hinj hfinite
  obtain ⟨i, j, hagain, hne⟩ := Function.not_injective_iff.mp hrepeats
  rcases Nat.lt_or_gt_of_ne hne with hlt | hgt
  · exact ⟨i, j, hlt, hagain, fun m _ => h m⟩
  · exact ⟨j, i, hgt, hagain.symm, fun m _ => h m⟩

theorem exists_stop_iff_not_cycles {s : S} (hfinite : (Set.range fun n => body^[n] s).Finite) :
    (∃ n, stops (body^[n] s) = true) ↔ ¬ Cycles stops body s := by
  constructor
  · rintro ⟨n, hn⟩ hcycles
    rw [hcycles.never_stops n] at hn
    exact absurd hn Bool.false_ne_true
  · intro h
    by_contra hnever
    refine h (cycles_of_never_stops hfinite fun n => ?_)
    rw [← Bool.not_eq_true]
    exact fun hn => hnever ⟨n, hn⟩

end WhileLoop
