import Memwatch.Find.Conserve

/-!
# Who claims what

A flag is exchanged to `true` by one worker once, and only that worker looks at
the region. A worker that is done has seen every flag set.
-/

namespace Memwatch

namespace Find

variable {job : Job} {numThreads i : Nat} {es : List Event} {s s' : State} {w w' : Worker}
  {e : Event}

/-- The flags a worker is past. -/
def Pc.Passed : Pc → Nat → Prop
  | .start, _ => False
  | .claim z, x => x < z
  | .scan z _, x => x ≤ z
  | .done, _ => True

def Event.claims : Event → Option Nat
  | .claim _ x => some x
  | _ => none

/-- The regions that were claimed, in the order of their claims. -/
def claims (es : List Event) : List Nat := es.filterMap Event.claims

theorem mem_claims {x : Nat} : x ∈ claims es ↔ ∃ i, Event.claim i x ∈ es := by
  unfold claims
  rw [List.mem_filterMap]
  constructor
  · rintro ⟨e, he, hx⟩
    cases e with
    | claim i z => cases hx; exact ⟨i, he⟩
    | _ => cases hx
  · rintro ⟨i, he⟩
    exact ⟨_, he, rfl⟩

theorem claims_concat (es : List Event) (e : Event) :
    claims (es ++ [e]) = claims es ++ e.claims.toList := by
  unfold claims
  rw [List.filterMap_append]
  cases h : e.claims <;> simp [h]

/-- What a run has claimed, and where the workers stand. -/
structure Claims (job : Job) (es : List Event) (s : State) : Prop where
  flags : s.claimed.length = job.regions.length
  claimed_iff : ∀ x, s.claimed[x]? = some true ↔ x ∈ claims es
  once : (claims es).Nodup
  passed : ∀ w ∈ s.workers, ∀ x < job.regions.length, w.pc.Passed x → s.claimed[x]? = some true
  read : ScansRead job s
  owns : ∀ i w x y, s.workers[i]? = some w → w.pc = .scan x y → Event.claim i x ∈ es ∧ y < 2 ^ 64
  looks : ∀ i x y, Event.look i x y ∈ es → Event.claim i x ∈ es

theorem Claims.unique (h : Claims job es s) {i j x : Nat} (hi : Event.claim i x ∈ es)
    (hj : Event.claim j x ∈ es) : i = j := by
  by_contra hne
  have hsymm : Std.Symm fun a a' : Event =>
      ∀ x, a.claims = some x → ∀ x', a'.claims = some x' → x ≠ x' :=
    ⟨fun a a' h x hx x' hx' => (h x' hx' x hx).symm⟩
  have hpair := List.pairwise_filterMap.mp h.once
  exact hpair.forall hi hj (fun heq => hne (Event.claim.inj heq).1) x rfl x rfl rfl

theorem Claims.init : Claims job [] (init job numThreads) where
  flags := List.length_replicate
  claimed_iff x := by
    refine iff_of_false (fun h => ?_) List.not_mem_nil
    have := List.eq_of_mem_replicate (List.mem_of_getElem? h)
    cases this
  once := List.nodup_nil
  passed w hw x _ hpassed := by
    rw [List.eq_of_mem_replicate hw] at hpassed
    exact hpassed.elim
  read w hw x y region hpc := by
    rw [List.eq_of_mem_replicate hw] at hpc
    cases hpc
  owns i w x y hw hpc := by
    rw [List.eq_of_mem_replicate (List.mem_of_getElem? hw)] at hpc
    cases hpc
  looks := nofun

theorem getElem?_set_cases {l : List Worker} {j : Nat} {v : Worker}
    (h : (l.set i w')[j]? = some v) : j = i ∧ v = w' ∨ j ≠ i ∧ l[j]? = some v := by
  by_cases hj : j = i
  · subst hj
    rw [List.getElem?_set_self' ] at h
    obtain ⟨-, -, rfl⟩ := Option.map_eq_some_iff.mp h
    exact .inl ⟨rfl, rfl⟩
  · rw [List.getElem?_set_ne (Ne.symm hj)] at h
    exact .inr ⟨hj, h⟩

theorem Claims.set (h : Claims job es s) (hs' : s'.workers = s.workers.set i w')
    (hclaimed : s'.claimed = s.claimed) (hev : e.claims = none)
    (hpassed : ∀ x < job.regions.length, w'.pc.Passed x → s.claimed[x]? = some true)
    (hscan : ∀ x y, w'.pc = .scan x y → Event.claim i x ∈ es ∧ y < 2 ^ 64 ∧
      ∀ region, job.regions[x]? = some region → region.HasData)
    (hlooks : ∀ j x y, e = .look j x y → Event.claim j x ∈ es) : Claims job (es ++ [e]) s' where
  flags := by rw [hclaimed]; exact h.flags
  claimed_iff x := by rw [hclaimed, claims_concat, hev]; simpa using h.claimed_iff x
  once := by rw [claims_concat, hev]; simpa using h.once
  passed v hv x hx hvx := by
    rw [hclaimed]
    rw [hs'] at hv
    rcases List.mem_or_eq_of_mem_set hv with hv | rfl
    · exact h.passed v hv x hx hvx
    · exact hpassed x hx hvx
  read v hv x y region hpc hregion := by
    rw [hs'] at hv
    rcases List.mem_or_eq_of_mem_set hv with hv | rfl
    · exact h.read v hv x y region hpc hregion
    · exact (hscan x y hpc).2.2 region hregion
  owns j v x y hv hpc := by
    rw [hs'] at hv
    rcases getElem?_set_cases hv with ⟨rfl, rfl⟩ | ⟨-, hv⟩
    · obtain ⟨hclaim, hlt, -⟩ := hscan x y hpc
      exact ⟨List.mem_append_left _ hclaim, hlt⟩
    · obtain ⟨hclaim, hlt⟩ := h.owns j v x y hv hpc
      exact ⟨List.mem_append_left _ hclaim, hlt⟩
  looks j x y hmem := by
    rcases List.mem_append.mp hmem with hmem | hmem
    · exact List.mem_append_left _ (h.looks j x y hmem)
    · exact List.mem_append_left _ (hlooks j x y (List.mem_singleton.mp hmem).symm)

/-! ## A claim -/

theorem getElem?_set_true {flags : List Bool} {x z : Nat} (hx : x < flags.length) :
    (flags.set x true)[z]? = some true ↔ flags[z]? = some true ∨ z = x := by
  by_cases hzx : z = x
  · rw [hzx, List.getElem?_set_self hx]
    exact iff_of_true rfl (.inr rfl)
  · rw [List.getElem?_set_ne (Ne.symm hzx), or_iff_left hzx]

/-- A worker that has claimed a region is past no flag behind it. -/
theorem le_of_passed_claimed {region : Region} {x z : Nat}
    (h : (if region.data.isEmpty then Pc.claim (x + 1) else .scan x 0).Passed z) : z ≤ x := by
  split at h
  · exact Nat.lt_succ_iff.mp h
  · exact h

theorem scan_of_claimed {region : Region} {x y z : Nat}
    (h : (if region.data.isEmpty then Pc.claim (x + 1) else .scan x 0) = .scan z y) :
    z = x ∧ y = 0 ∧ region.HasData := by
  split at h
  · cases h
  · next hd =>
    cases h
    exact ⟨rfl, rfl, Region.hasData_iff.mpr hd⟩

theorem Claims.claim (h : Claims job es s) (hw : s.workers[i]? = some w) {x : Nat} {region : Region}
    (hpc : w.pc = .claim x) (hfree : s.claimed[x]? = some false)
    (hregion : job.regions[x]? = some region) :
    Claims job (es ++ [.claim i x]) ({ s with claimed := s.claimed.set x true }.setWorker i
      { w with pc := if region.data.isEmpty then .claim (x + 1) else .scan x 0 }) := by
  have hx : x < s.claimed.length := (List.getElem?_eq_some_iff.mp hfree).1
  have hnew : x ∉ claims es := by
    rw [← h.claimed_iff, hfree]
    simp
  have hclaims : claims (es ++ [.claim i x]) = claims es ++ [x] := claims_concat es _
  exact
    { flags := List.length_set.trans h.flags
      claimed_iff := fun z => by
        rw [hclaims, List.mem_append, List.mem_singleton, ← h.claimed_iff]
        exact getElem?_set_true hx
      once := by
        rw [hclaims]
        refine List.nodup_append.mpr ⟨h.once, List.nodup_singleton x, fun a ha b hb hab => ?_⟩
        rw [List.mem_singleton.mp hb] at hab
        exact hnew (hab ▸ ha)
      passed := fun v hv z hz hvz => by
        refine (getElem?_set_true hx).mpr ?_
        rcases List.mem_or_eq_of_mem_set hv with hv | rfl
        · exact .inl (h.passed v hv z hz hvz)
        · rcases Nat.lt_or_eq_of_le (le_of_passed_claimed hvz) with hlt | heq
          · refine .inl (h.passed w (List.mem_of_getElem? hw) z hz ?_)
            rw [hpc]
            exact hlt
          · exact .inr heq
      read := fun v hv z y r hvpc hr => by
        rcases List.mem_or_eq_of_mem_set hv with hv | rfl
        · exact h.read v hv z y r hvpc hr
        · obtain ⟨rfl, -, hd⟩ := scan_of_claimed hvpc
          cases hregion.symm.trans hr
          exact hd
      owns := fun j v z y hv hvpc => by
        rcases getElem?_set_cases hv with ⟨rfl, rfl⟩ | ⟨-, hv⟩
        · obtain ⟨rfl, rfl, -⟩ := scan_of_claimed hvpc
          exact ⟨List.mem_append_right _ (List.mem_singleton_self _), by omega⟩
        · obtain ⟨hclaim, hlt⟩ := h.owns j v z y hv hvpc
          exact ⟨List.mem_append_left _ hclaim, hlt⟩
      looks := fun j z y hmem => by
        rcases List.mem_append.mp hmem with hmem | hmem
        · exact List.mem_append_left _ (h.looks j z y hmem)
        · cases List.mem_singleton.mp hmem }

/-! ## Every step -/

theorem Claims.move (h : Claims job es s) (hw : s.workers[i]? = some w)
    (hmove : Move job s i w e s') : Claims job (es ++ [e]) s' := by
  have hpassed := h.passed w (List.mem_of_getElem? hw)
  have hnext : ∀ {x}, s.claimed[x]? = some true → (∀ z, z < x → w.pc.Passed z) →
      ∀ z < job.regions.length, (Pc.claim (x + 1)).Passed z → s.claimed[z]? = some true := by
    intro x hx hpc z hz hlt
    rcases Nat.lt_or_eq_of_le (Nat.lt_succ_iff.mp hlt) with hlt | rfl
    · exact hpassed z hz (hpc z hlt)
    · exact hx
  cases hmove with
  | start hpc => exact h.set rfl rfl rfl (fun x _ hx => absurd hx (Nat.not_lt_zero x)) nofun nofun
  | claim hpc hfree hregion => exact h.claim hw hpc hfree hregion
  | taken hpc htaken =>
    exact h.set rfl rfl rfl (hnext htaken fun z hz => by rw [hpc]; exact hz) nofun nofun
  | @look x y region hpc hregion hy hgo =>
    have hown := (h.owns i w x y hw hpc).1
    refine h.set rfl rfl rfl (fun z hz hzx => hpassed z hz ?_) ?_ ?_
    · rw [hpc]; exact hzx
    · rintro x' y' heq
      cases heq
      exact ⟨hown, Nat.mod_lt _ (by decide),
        fun r hr => h.read w (List.mem_of_getElem? hw) x y r hpc hr⟩
    · rintro j x' y' heq
      cases heq
      exact hown
  | @stop x y region hpc hregion hy hpage hsignaled =>
    have hx := (h.claimed_iff x).mpr (mem_claims.mpr ⟨i, (h.owns i w x y hw hpc).1⟩)
    exact h.set rfl rfl rfl (hnext hx fun z hz => by rw [hpc]; exact hz.le) nofun nofun
  | @leave x y region hpc hregion hy =>
    have hx := (h.claimed_iff x).mpr (mem_claims.mpr ⟨i, (h.owns i w x y hw hpc).1⟩)
    exact h.set rfl rfl rfl (hnext hx fun z hz => by rw [hpc]; exact hz.le) nofun nofun
  | @finish x hpc hend =>
    have hlast : s.claimed.length ≤ x := by
      rcases hend with hnone | ⟨hfree, hnone⟩
      · exact List.getElem?_eq_none_iff.mp hnone
      · rw [h.flags]; exact List.getElem?_eq_none_iff.mp hnone
    refine h.set rfl rfl rfl (fun z hz _ => hpassed z hz ?_) nofun nofun
    rw [hpc]
    show z < x
    have := h.flags
    omega

@[simp] theorem pc_signal (w : Worker) : w.signal.pc = w.pc := by
  unfold Worker.signal
  cases hpc : w.pc <;> simp [hpc]

theorem Claims.signal (h : Claims job es s) : Claims job (es ++ [.signal]) s.signalAll := by
  have hold : ∀ {v}, v ∈ s.signalAll.workers → ∃ w ∈ s.workers, v.pc = w.pc := by
    intro v hv
    obtain ⟨w, hw, rfl⟩ := List.mem_map.mp hv
    exact ⟨w, hw, pc_signal w⟩
  refine ⟨h.flags, fun x => ?_, ?_, fun v hv x hx hvx => ?_, fun v hv x y r hpc hr => ?_,
    fun j v x y hv hpc => ?_, fun j x y hmem => ?_⟩
  · show s.claimed[x]? = some true ↔ _
    rw [claims_concat]; simpa [Event.claims] using h.claimed_iff x
  · rw [claims_concat]; simpa [Event.claims] using h.once
  · obtain ⟨w, hw, heq⟩ := hold hv
    exact h.passed w hw x hx (heq ▸ hvx)
  · obtain ⟨w, hw, heq⟩ := hold hv
    exact h.read w hw x y r (heq ▸ hpc) hr
  · unfold State.signalAll at hv
    rw [List.getElem?_map] at hv
    obtain ⟨w, hw, rfl⟩ := Option.map_eq_some_iff.mp hv
    rw [pc_signal] at hpc
    obtain ⟨hclaim, hlt⟩ := h.owns j w x y hw hpc
    exact ⟨List.mem_append_left _ hclaim, hlt⟩
  · rcases List.mem_append.mp hmem with hmem | hmem
    · exact List.mem_append_left _ (h.looks j x y hmem)
    · cases List.mem_singleton.mp hmem

end Find
end Memwatch
