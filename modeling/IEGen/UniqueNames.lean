import IEGen.Lib.FreshNames

/-!
# Unique names

`createUniqueName` returns a name that is not taken as it is, and a taken one with the first number that frees it. It adds
only the second to the set of taken names, so that a name that was kept can be returned again, as a numbered one
(`namesDistinct_iff`).
-/

namespace IEGen

open FreshNames (numbered search IsFirstFree)

/-! ## The code -/

/-- `createUniqueName`, with the set of taken names after it; its loop makes at most `fuel` rounds. -/
def createUniqueName (fuel : Nat) (name : String) (taken : List String) : Option (String × List String) :=
  if name ∉ taken then some (name, taken)
  -- only here is the name that is returned inserted
  else (search name taken fuel 1).map fun retval => (retval, retval :: taken)

/-- A call for each name, one after the other. -/
def uniqueNames : List String → List String → Option (List String × List String)
  | [], taken => some ([], taken)
  | name :: names, taken => do
    let p ← createUniqueName (taken.length + 1) name taken
    let q ← uniqueNames names p.2
    some (p.1 :: q.1, q.2)

/-! ## A call -/

section Calls

variable {name : String} {names taken : List String}

theorem createUniqueName_of_free (fuel : Nat) (h : name ∉ taken) : createUniqueName fuel name taken = some (name, taken) :=
  if_pos h

/-- The loop ends, after at most as many rounds as there are taken names and one more. -/
theorem createUniqueName_of_taken (h : name ∈ taken) : ∃ k, IsFirstFree name taken k ∧
    ∀ fuel, taken.length < fuel → createUniqueName fuel name taken = some (numbered name k, numbered name k :: taken) := by
  obtain ⟨k, hk, hle⟩ := FreshNames.exists_isFirstFree name taken
  refine ⟨k, hk, fun fuel hfuel => ?_⟩
  rw [createUniqueName, if_neg (not_not.2 h), FreshNames.search_eq_some hk.free hk.below hk.pos (by omega)]
  rfl

theorem uniqueNames_append (n : String) : uniqueNames (names ++ [n]) taken = (do
    let q ← uniqueNames names taken
    let p ← createUniqueName (q.2.length + 1) n q.2
    some (q.1 ++ [p.1], p.2)) := by
  induction names generalizing taken with
  | nil =>
    simp only [List.nil_append, uniqueNames, Option.bind_eq_bind, Option.bind_some]
  | cons m names ih =>
    simp only [List.cons_append, uniqueNames, Option.bind_eq_bind, Option.bind_assoc, Option.bind_some, ih]

end Calls

/-! ## The names that are returned -/

/-- The names of the variables, among elements that are constants (`true`) or variables. -/
def variableNames (outs : List (Bool × String)) : List String := (outs.filter (fun p => !p.1)).map Prod.snd

/-- The elements with the names that were returned for them. -/
def renamed (outs : List (Bool × String)) (returned : List String) : List (Bool × String) :=
  (outs.map Prod.fst).zip returned

/-- The calls end, return no taken name, and no name for two variables. -/
def NamesDistinct (outs : List (Bool × String)) (taken : List String) : Prop :=
  ∃ returned taken', uniqueNames (outs.map Prod.snd) taken = some (returned, taken') ∧
    (∀ r ∈ returned, r ∉ taken) ∧ (variableNames (renamed outs returned)).Nodup

/-- No variable whose name is taken when its turn comes gets, with the first number that frees it, the name of an earlier
variable. -/
def NeverMeets (outs : List (Bool × String)) (taken : List String) : Prop :=
  ∀ before n after, outs = before ++ (false, n) :: after → ∀ returned taken',
    uniqueNames (before.map Prod.snd) taken = some (returned, taken') → n ∈ taken' →
      ∀ k, IsFirstFree n taken' k → numbered n k ∉ variableNames before

section Names

variable {outs : List (Bool × String)} {taken : List String}

@[simp] theorem variableNames_append (xs ys : List (Bool × String)) :
    variableNames (xs ++ ys) = variableNames xs ++ variableNames ys := by
  simp [variableNames]

/-- Different names for variables, by their places. -/
theorem nodup_variableNames_iff : (variableNames outs).Nodup ↔ ∀ (i j : Nat) (hi : i < outs.length) (hj : j < outs.length),
    i < j → outs[i].1 = false → outs[j].1 = false → outs[i].2 ≠ outs[j].2 := by
  rw [variableNames, List.Nodup, List.pairwise_map, List.pairwise_filter, List.pairwise_iff_getElem]
  simp only [Bool.not_eq_true', ne_eq]

/-- The state after the calls: the set has grown, by names that are not kept; what was returned is free of it only where a
name was kept. -/
structure NamesAfter (outs : List (Bool × String)) (taken returned taken' : List String) : Prop where
  length : returned.length = outs.length
  grows : ∀ x ∈ taken, x ∈ taken'
  fresh : ∀ r ∈ returned, r ∉ taken
  kept : ∀ x, x ∉ taken' → (x ∈ variableNames (renamed outs returned) ↔ x ∈ variableNames outs)

theorem renamed_append {returned : List String} (h : returned.length = outs.length) (b : Bool) (n r : String) :
    renamed (outs ++ [(b, n)]) (returned ++ [r]) = renamed outs returned ++ [(b, r)] := by
  rw [renamed, List.map_append, List.zip_append (by rw [List.length_map, h])]
  rfl

theorem exists_namesAfter (outs : List (Bool × String)) (taken : List String) :
    ∃ returned taken', uniqueNames (outs.map Prod.snd) taken = some (returned, taken') ∧ NamesAfter outs taken returned taken' := by
  induction outs using List.reverseRecOn with
  | nil => exact ⟨[], taken, rfl, rfl, fun _ h => h, by simp, fun x _ => by simp [renamed]⟩
  | append_singleton outs o ih =>
    obtain ⟨returned, taken', hrun, hlen, hgrows, hfresh, hkept⟩ := ih
    obtain ⟨b, n⟩ := o
    rw [List.map_append, List.map_singleton, uniqueNames_append, hrun]
    by_cases hn : n ∈ taken'
    · obtain ⟨k, hk, hcall⟩ := createUniqueName_of_taken hn
      refine ⟨returned ++ [numbered n k], numbered n k :: taken', ?_, ?_, fun x hx => List.mem_cons_of_mem _ (hgrows x hx),
        fun r hr => ?_, fun x hx => ?_⟩
      · simp only [Option.bind_eq_bind, Option.bind_some, hcall _ (Nat.lt_succ_self _)]
      · simp [hlen]
      · rcases List.mem_append.1 hr with hr | hr
        · exact hfresh r hr
        · obtain rfl := List.mem_singleton.1 hr
          exact fun hmem => hk.free (hgrows _ hmem)
      · -- a name that is free after the call is neither the number that was given nor the name that was taken
        rw [List.mem_cons, not_or] at hx
        have hxn : x ≠ n := fun h => hx.2 (h ▸ hn)
        rw [renamed_append hlen, variableNames_append, variableNames_append, List.mem_append, List.mem_append, hkept x hx.2]
        cases b <;> simp [variableNames, hx.1, hxn]
    · refine ⟨returned ++ [n], taken', ?_, by simp [hlen], hgrows, fun r hr => ?_, fun x hx => ?_⟩
      · simp only [Option.bind_eq_bind, Option.bind_some, createUniqueName_of_free _ hn]
      · rcases List.mem_append.1 hr with hr | hr
        · exact hfresh r hr
        · obtain rfl := List.mem_singleton.1 hr
          exact fun hmem => hn (hgrows _ hmem)
      · rw [renamed_append hlen, variableNames_append, variableNames_append, List.mem_append, List.mem_append, hkept x hx]

/-- The last call meets no name that was returned for a variable, iff it does not return the name of an earlier variable. -/
theorem notMem_returned_iff {returned taken' : List String} (h : NamesAfter outs taken returned taken') {n r : String}
    {taken'' : List String} (hcall : createUniqueName (taken'.length + 1) n taken' = some (r, taken''))
    (hn : n ∉ variableNames outs) : r ∉ variableNames (renamed outs returned) ↔
      (n ∈ taken' → ∀ k, IsFirstFree n taken' k → numbered n k ∉ variableNames outs) := by
  by_cases hmem : n ∈ taken'
  · obtain ⟨k, hk, hrun⟩ := createUniqueName_of_taken hmem
    rw [hrun _ (Nat.lt_succ_self _), Option.some.injEq, Prod.mk.injEq] at hcall
    obtain ⟨rfl, -⟩ := hcall
    rw [h.kept _ hk.free]
    exact ⟨fun hno _ k' hk' => hk.unique hk' ▸ hno, fun hno => hno hmem k hk⟩
  · rw [createUniqueName_of_free _ hmem, Option.some.injEq, Prod.mk.injEq] at hcall
    obtain ⟨rfl, -⟩ := hcall
    rw [h.kept _ hmem]
    exact ⟨fun _ hin => absurd hin hmem, fun _ => hn⟩

theorem neverMeets_append (o : Bool × String) : NeverMeets (outs ++ [o]) taken ↔ NeverMeets outs taken ∧
    (o.1 = false → ∀ returned taken', uniqueNames (outs.map Prod.snd) taken = some (returned, taken') → o.2 ∈ taken' →
      ∀ k, IsFirstFree o.2 taken' k → numbered o.2 k ∉ variableNames outs) := by
  constructor
  · intro h
    refine ⟨fun before n after heq => h before n (after ++ [o]) (by rw [heq, List.append_assoc, List.cons_append]), fun ho => ?_⟩
    obtain ⟨b, n⟩ := o
    obtain rfl : b = false := ho
    exact h outs n [] rfl
  · rintro ⟨hfirst, hlast⟩ before n after heq
    rcases List.eq_nil_or_concat after with rfl | ⟨after, o', rfl⟩
    · obtain ⟨rfl, ho⟩ := List.append_inj' heq rfl
      obtain rfl : o = (false, n) := by simpa using ho
      exact hlast rfl
    · rw [List.concat_eq_append, ← List.cons_append, ← List.append_assoc] at heq
      obtain ⟨rfl, -⟩ := List.append_inj' heq rfl
      exact hfirst before n after rfl

/-- The names that are returned for variables with different names are different iff no call returns the name of an earlier
variable. -/
theorem namesDistinct_iff (hnames : (variableNames outs).Nodup) : NamesDistinct outs taken ↔ NeverMeets outs taken := by
  induction outs using List.reverseRecOn with
  | nil =>
    refine ⟨fun _ before n after heq => ?_, fun _ => ⟨[], taken, rfl, by simp, by simp [renamed, variableNames]⟩⟩
    simp at heq
  | append_singleton outs o ih =>
    obtain ⟨b, n⟩ := o
    rw [variableNames_append, List.nodup_append] at hnames
    obtain ⟨returned, taken', hrun, hstate⟩ := exists_namesAfter outs taken
    obtain ⟨rs, taken'', hrun', hstate'⟩ := exists_namesAfter (outs ++ [(b, n)]) taken
    rw [neverMeets_append, ← ih hnames.1]
    have hruns : uniqueNames ((outs ++ [(b, n)]).map Prod.snd) taken = some (rs, taken'') := hrun'
    rw [List.map_append, List.map_singleton, uniqueNames_append, hrun, Option.bind_eq_bind, Option.bind_some,
      Option.bind_eq_bind, Option.bind_eq_some_iff] at hrun'
    obtain ⟨⟨r, t⟩, hcall, heq⟩ := hrun'
    rw [Option.some.injEq, Prod.mk.injEq] at heq
    obtain ⟨rfl, rfl⟩ := heq
    have hdistinct : NamesDistinct (outs ++ [(b, n)]) taken ↔
        (variableNames (renamed outs returned) ++ variableNames [(b, r)]).Nodup := by
      rw [NamesDistinct, ← variableNames_append, ← renamed_append hstate.length]
      refine ⟨fun ⟨rs, t', h, _, hnodup⟩ => ?_, fun hnodup => ⟨_, _, hruns, hstate'.fresh, hnodup⟩⟩
      rw [hruns, Option.some.injEq, Prod.mk.injEq] at h
      rw [h.1]
      exact hnodup
    have hbefore : NamesDistinct outs taken ↔ (variableNames (renamed outs returned)).Nodup := by
      refine ⟨fun ⟨rs, t', h, _, hnodup⟩ => ?_, fun hnodup => ⟨_, _, hrun, hstate.fresh, hnodup⟩⟩
      rw [hrun, Option.some.injEq, Prod.mk.injEq] at h
      rw [h.1]
      exact hnodup
    rw [hdistinct, hbefore, List.nodup_append]
    cases b with
    | true => simp [variableNames]
    | false =>
      have hn : n ∉ variableNames outs := fun hmem => hnames.2.2 n hmem n (by simp [variableNames]) rfl
      have hlast := notMem_returned_iff hstate hcall hn
      have hone : variableNames [(false, r)] = [r] := rfl
      rw [hone]
      refine and_congr_right fun _ => ?_
      constructor
      · rintro ⟨-, hne⟩ - returned' t' hrun'
        rw [hrun, Option.some.injEq, Prod.mk.injEq] at hrun'
        rw [← hrun'.2]
        exact hlast.1 fun hmem => hne r hmem r (List.mem_singleton.2 rfl) rfl
      · intro hmeets
        refine ⟨List.nodup_singleton r, fun x hx y hy hxy => ?_⟩
        obtain rfl := List.mem_singleton.1 hy
        exact hlast.2 (hmeets rfl returned taken' hrun) (hxy ▸ hx)

end Names

end IEGen
