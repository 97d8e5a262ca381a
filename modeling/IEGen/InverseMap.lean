import IEGen.Appended

/-!
# The inverse map

In a run of calls that all return, the inverse map is an involution without fixed points on the declared bijective
functions (`Environment.Involution`): a name that is declared is new, and the inverse map has entries for declared names
only, so the entries of a new function and its inverse meet no others.

The domain of the inverse is a copy of a copy of the range, which is the stored range only when the second copy changes
nothing (`CopiesOnce`).
-/

namespace IEGen

/-! ## The inverse map -/

/-- The inverse map is an involution without fixed points on the declared bijective functions. -/
structure Environment.Involution (env : Environment) : Prop where
  named : ∀ name f, env.uninterpFuncMap.lookup name = some f → f.name = name
  bijective : ∀ name f, env.uninterpFuncMap.lookup name = some f →
    (f.isBijective = true ↔ (env.inverseMap.lookup name).isSome = true)
  swapped : ∀ name inv, env.inverseMap.lookup name = some inv → inv ≠ name ∧ env.inverseMap.lookup inv = some name ∧
    ∃ f g, env.uninterpFuncMap.lookup name = some f ∧ env.uninterpFuncMap.lookup inv = some g ∧ g.isBijective = true ∧
      g.domain = f.range ∧ g.range = f.domain
  injective : ∀ name name' inv, env.inverseMap.lookup name = some inv → env.inverseMap.lookup name' = some inv →
    name = name'

/-- Copying the declared sets once more, before the inverse is known, does not change the copies that are stored. -/
def Environment.CopiesOnce (env : Environment) (f : UninterpFunc) : Prop :=
  f.isBijective = true → ∀ s, s = f.domain ∨ s = f.range → ∀ s', s.copy env = .ok s' →
    s'.copy (env.inserted f) = s.copy (env.inserted f)

/-- The condition of `CopiesOnce` for the calls that declare a function. -/
def EnvCall.CopiesOnce (env : Environment) : EnvCall → Prop
  | .setCurrEnv f => env.reset.CopiesOnce f
  | .appendCurrEnv f => env.CopiesOnce f
  | _ => True

section Involution

variable {parse_set : ParseSet} {env env' : Environment} {f : UninterpFunc}

theorem Environment.Involution.none_of_not_mem (hi : env.Involution) {name : String} (h : name ∉ env.names) :
    env.uninterpFuncMap.lookup name = none ∧ env.inverseMap.lookup name = none := by
  have hmap : env.uninterpFuncMap.lookup name = none := by
    rw [← lookup_isSome] at h
    exact Option.not_isSome_iff_eq_none.1 h
  refine ⟨hmap, ?_⟩
  cases hinv : env.inverseMap.lookup name with
  | none => rfl
  | some inv =>
    obtain ⟨-, -, f, -, hf, -⟩ := hi.swapped name inv hinv
    rw [hmap] at hf
    cases hf

theorem Environment.Involution.of_swapped (named : ∀ name f, env.uninterpFuncMap.lookup name = some f → f.name = name)
    (bijective : ∀ name f, env.uninterpFuncMap.lookup name = some f →
      (f.isBijective = true ↔ (env.inverseMap.lookup name).isSome = true))
    (swapped : ∀ name inv, env.inverseMap.lookup name = some inv → inv ≠ name ∧
      env.inverseMap.lookup inv = some name ∧ ∃ f g, env.uninterpFuncMap.lookup name = some f ∧
        env.uninterpFuncMap.lookup inv = some g ∧ g.isBijective = true ∧ g.domain = f.range ∧ g.range = f.domain) :
    env.Involution := by
  refine ⟨named, bijective, swapped, fun name name' inv h h' => ?_⟩
  obtain ⟨-, hback, -⟩ := swapped name inv h
  obtain ⟨-, hback', -⟩ := swapped name' inv h'
  exact Option.some.inj (hback.symm.trans hback')

/-- A function without an inverse. -/
theorem Environment.Involution.alone (hi : env.Involution) (hf : f.name ∉ env.names) (hb : f.isBijective = false)
    (hmap : ∀ k, env'.uninterpFuncMap.lookup k = (env.uninterpFuncMap.lookup k).or ([f.entry].lookup k))
    (hinv : ∀ k, env'.inverseMap.lookup k = env.inverseMap.lookup k) : env'.Involution := by
  obtain ⟨hnone, hnoinv⟩ := hi.none_of_not_mem hf
  have hold : ∀ k, k ≠ f.name → env'.uninterpFuncMap.lookup k = env.uninterpFuncMap.lookup k := by
    intro k hk
    have hb : (k == f.name) = false := by simpa using hk
    rw [hmap, UninterpFunc.entry, List.lookup_cons, hb, List.lookup_nil, Option.or_none]
  have hnew : env'.uninterpFuncMap.lookup f.name = some f := by
    rw [hmap, hnone]
    simp [UninterpFunc.entry]
  refine .of_swapped (fun name g hg => ?_) (fun name g hg => ?_) fun name inv h => ?_
  · by_cases hk : name = f.name
    · subst hk
      rw [hnew] at hg
      rw [← Option.some.inj hg]
    · exact hi.named name g (hold name hk ▸ hg)
  · rw [hinv]
    by_cases hk : name = f.name
    · subst hk
      rw [hnew] at hg
      rw [hnoinv, ← Option.some.inj hg, hb]
      simp
    · exact hi.bijective name g (hold name hk ▸ hg)
  · rw [hinv] at h
    obtain ⟨hne, hback, u, v, hu, hv, hrest⟩ := hi.swapped name inv h
    have hnf : ∀ k u, env.uninterpFuncMap.lookup k = some u → k ≠ f.name := by
      rintro k u hk rfl
      rw [hnone] at hk
      cases hk
    rw [hinv]
    exact ⟨hne, hback, u, v, by rw [hold name (hnf name u hu), hu], by rw [hold inv (hnf inv v hv), hv], hrest⟩

/-- A function with its inverse. -/
theorem Environment.Involution.withInverse (hi : env.Involution) {g : UninterpFunc} (hf : f.name ∉ env.names)
    (hg : g.name ∉ env.names) (hne : f.name ≠ g.name) (hfb : f.isBijective = true) (hgb : g.isBijective = true)
    (hdom : g.domain = f.range) (hran : g.range = f.domain)
    (hmap : ∀ k, env'.uninterpFuncMap.lookup k = (env.uninterpFuncMap.lookup k).or ([f.entry, g.entry].lookup k))
    (hinv : ∀ k, env'.inverseMap.lookup k =
      (env.inverseMap.lookup k).or ([(f.name, g.name), (g.name, f.name)].lookup k)) : env'.Involution := by
  obtain ⟨hnf, hnfi⟩ := hi.none_of_not_mem hf
  obtain ⟨hng, hngi⟩ := hi.none_of_not_mem hg
  have hgf : (g.name == f.name) = false := by simpa using hne.symm
  have hold : ∀ k, k ≠ f.name → k ≠ g.name → env'.uninterpFuncMap.lookup k = env.uninterpFuncMap.lookup k ∧
      env'.inverseMap.lookup k = env.inverseMap.lookup k := by
    intro k hkf hkg
    have hb : (k == f.name) = false := by simpa using hkf
    have hb' : (k == g.name) = false := by simpa using hkg
    rw [hmap, hinv]
    simp [UninterpFunc.entry, List.lookup_cons, hb, hb']
  have hmf : env'.uninterpFuncMap.lookup f.name = some f := by
    rw [hmap, hnf]
    simp [UninterpFunc.entry]
  have hmg : env'.uninterpFuncMap.lookup g.name = some g := by
    rw [hmap, hng]
    simp [UninterpFunc.entry, List.lookup_cons, hgf]
  have hif : env'.inverseMap.lookup f.name = some g.name := by
    rw [hinv, hnfi]
    simp
  have hig : env'.inverseMap.lookup g.name = some f.name := by
    rw [hinv, hngi]
    simp [List.lookup_cons, hgf]
  refine .of_swapped (fun name u hu => ?_) (fun name u hu => ?_) fun name inv h => ?_
  · by_cases hkf : name = f.name
    · rw [hkf, hmf] at hu
      rw [← Option.some.inj hu, hkf]
    · by_cases hkg : name = g.name
      · rw [hkg, hmg] at hu
        rw [← Option.some.inj hu, hkg]
      · exact hi.named name u ((hold name hkf hkg).1 ▸ hu)
  · by_cases hkf : name = f.name
    · rw [hkf, hmf] at hu
      rw [← Option.some.inj hu, hkf, hif, hfb]
      simp
    · by_cases hkg : name = g.name
      · rw [hkg, hmg] at hu
        rw [← Option.some.inj hu, hkg, hig, hgb]
        simp
      · rw [(hold name hkf hkg).1] at hu
        rw [(hold name hkf hkg).2]
        exact hi.bijective name u hu
  · by_cases hkf : name = f.name
    · subst hkf
      rw [hif] at h
      obtain rfl := Option.some.inj h
      exact ⟨hne.symm, hig, f, g, hmf, hmg, hgb, hdom, hran⟩
    · by_cases hkg : name = g.name
      · subst hkg
        rw [hig] at h
        obtain rfl := Option.some.inj h
        exact ⟨hne, hif, g, f, hmg, hmf, hfb, hran.symm, hdom.symm⟩
      · obtain ⟨hkeep, hkeep'⟩ := hold name hkf hkg
        rw [hkeep'] at h
        obtain ⟨hni, hback, u, v, hu, hv, hrest⟩ := hi.swapped name inv h
        have hif' : inv ≠ f.name := by
          rintro rfl
          rw [hnf] at hv
          cases hv
        have hig' : inv ≠ g.name := by
          rintro rfl
          rw [hng] at hv
          cases hv
        obtain ⟨hki, hki'⟩ := hold inv hif' hig'
        exact ⟨hni, by rw [hki', hback], u, v, by rw [hkeep, hu], by rw [hki, hv], hrest⟩

/-- Declaring a function keeps the involution. -/
theorem involution_appendCurrEnv (hi : env.Involution) (hc : env.CopiesOnce f)
    (h : appendCurrEnv parse_set f env = .ok () env') : env'.Involution := by
  obtain ⟨gs, hs, rules, hmade, hall, -, rfl, hfresh, -⟩ := appendCurrEnv_ok h
  have hmap : ∀ k, (((env.inserted f).withFuncs hs).withRules rules).uninterpFuncMap.lookup k =
      (env.uninterpFuncMap.lookup k).or ((hs.map UninterpFunc.entry).lookup k) := by
    intro k
    show (env.uninterpFuncMap ++ hs.map UninterpFunc.entry).lookup k = _
    rw [List.lookup_append]
  have hinv : ∀ k, (((env.inserted f).withFuncs hs).withRules rules).inverseMap.lookup k =
      (env.inverseMap.lookup k).or (f.inversePairs.lookup k) := fun k => Environment.lookup_insertAll k _ _
  cases hmade with
  | alone hb =>
    obtain ⟨f', _, hcopy, hnil, rfl⟩ := List.forall₂_cons_left_iff.1 hall
    cases hnil
    obtain ⟨d, r, -, -, rfl⟩ := UninterpFunc.copy_eq_ok.1 hcopy
    have hpairs : f.inversePairs = [] := by
      unfold UninterpFunc.inversePairs
      rw [hb]
      rfl
    rw [hpairs] at hinv
    refine Environment.Involution.alone (f := { f with domain := d, range := r }) hi ?_ hb hmap ?_
    · exact hfresh f List.mem_cons_self
    · intro k
      rw [hinv, List.lookup_nil, Option.or_none]
  | withInverse hb hd hr =>
    obtain ⟨f', _, hcopy, hrest, rfl⟩ := List.forall₂_cons_left_iff.1 hall
    obtain ⟨g', _, hcopy', hnil, rfl⟩ := List.forall₂_cons_left_iff.1 hrest
    cases hnil
    obtain ⟨d, r, hfd, hfr, rfl⟩ := UninterpFunc.copy_eq_ok.1 hcopy
    obtain ⟨d', r', hgd, hgr, rfl⟩ := UninterpFunc.copy_eq_ok.1 hcopy'
    have hpairs : f.inversePairs = [(f.name, f.invName), (f.invName, f.name)] := if_pos hb
    rw [hpairs] at hinv
    have hdom : d' = r := by
      have h := hc hb f.range (.inr rfl) _ hd
      exact Except.ok.inj ((hgd.symm.trans h).trans hfr)
    have hran : r' = d := by
      have h := hc hb f.domain (.inl rfl) _ hr
      exact Except.ok.inj ((hgr.symm.trans h).trans hfd)
    refine Environment.Involution.withInverse (f := { f with domain := d, range := r })
      (g := ⟨f.invName, d', r', true, .none⟩) hi ?_ ?_ f.name_ne_invName hb rfl hdom hran hmap hinv
    · exact hfresh f List.mem_cons_self
    · have hg := hfresh _ (List.mem_cons_of_mem f List.mem_cons_self)
      exact hg

theorem involution_empty (rules : List UniQuantRule) : (Environment.mk [] [] rules).Involution := by
  refine .of_swapped (fun _ _ h => ?_) (fun _ _ h => ?_) fun _ _ h => ?_ <;> cases h

end Involution

/-- In a run without a throw in which copying once more changes no declared set, the inverse map is an involution. -/
theorem inverse_involution (parse_set : ParseSet) (calls : List EnvCall) (env : Environment)
    (h : EnvRun parse_set EnvCall.CopiesOnce calls env) : env.Involution := by
  induction h with
  | start => exact involution_empty []
  | @step calls call env env' _ hp hrun ih =>
    cases call with
    | setEmpty =>
      cases hrun
      exact involution_empty env.uniQuantRules
    | setCurrEnv f =>
      obtain ⟨_, _, hmod, hrun⟩ := Outcome.step_bind_eq_ok.1 hrun
      cases hmod
      exact involution_appendCurrEnv (involution_empty env.uniQuantRules) hp hrun
    | appendCurrEnv f => exact involution_appendCurrEnv ih hp hrun
    | addUniQuantRule rule =>
      cases hrun
      exact ⟨ih.named, ih.bijective, ih.swapped, ih.injective⟩

/-- `[i] : i - f(k(k_inv(f_inv(i)))) = 0` -/
def twiceConj : Conjunction :=
  ⟨[.mk .equality [.tupleVar 1 0, .ufCall (-1) "f" [.ofTerm (.ufCall 1 "k" [.ofTerm (.ufCall 1 "k_inv"
    [.ofTerm (.ufCall 1 "f_inv" [.ofTerm (.tupleVar 1 0)] none)] none)] none)] none]], [], ⟨[⟨false, 0, "i"⟩]⟩, 0⟩

/-- `{ [i] : i = f(k(k_inv(f_inv(i)))) } union { [0] }` -/
def twiceSet : Set := ⟨1, [twiceConj, .ofTupleDecl ⟨[⟨true, 0, ""⟩]⟩]⟩

/-- The function `k` on the integers, and `f` with a range that copying simplifies more than once. -/
def twiceCalls : List EnvCall :=
  [.appendCurrEnv ⟨"k", intSet, intSet, true, .none⟩, .appendCurrEnv ⟨"f", intSet, twiceSet, true, .none⟩]

theorem not_involution : ∃ env, EnvRun noText (fun _ _ => True) twiceCalls env ∧
    ¬ env.Involution ∧ ∃ s t, env.queryRange "f" = .ok s ∧ env.queryDomain "f_inv" = .ok t ∧
      ∀ I, s.denote I ≠ t.denote I := by
  refine ⟨_, .step (.step .start trivial rfl) trivial rfl, fun h => ?_,
    ⟨1, [.ofTupleDecl ⟨[⟨false, 0, "i"⟩]⟩, .ofTupleDecl ⟨[⟨true, 0, ""⟩]⟩]⟩, ⟨1, [.ofTupleDecl ⟨[⟨true, 0, ""⟩]⟩]⟩,
    rfl, rfl, fun I h => ?_⟩
  · obtain ⟨-, -, f, g, hf, hg, -, hdom, -⟩ := h.swapped "f" "f_inv" rfl
    cases hf
    cases hg
    exact absurd hdom (by decide)
  · have hmem : [1] ∈ (Set.mk 1 [.ofTupleDecl ⟨[⟨true, 0, ""⟩]⟩]).denote I := by
      rw [← h]
      refine ⟨_, List.mem_cons_self, (mem_denote_of_unconstrained rfl).2 ⟨rfl, fun i hi hc => ?_⟩⟩
      obtain rfl : i = 0 := Nat.lt_one_iff.1 hi
      cases hc
    obtain ⟨c, hc, hadm, -⟩ := hmem
    obtain rfl := List.mem_singleton.1 hc
    have h01 := hadm.2 0 Nat.one_pos rfl
    exact absurd h01 (by decide)

theorem inverse_involution_ints : (Environment.mk [("k", ⟨"k", intSet, intSet, true, .none⟩),
    ("k_inv", ⟨"k_inv", intSet, intSet, true, .none⟩)] [("k", "k_inv"), ("k_inv", "k")] []).Involution := by
  refine inverse_involution noText [.appendCurrEnv ⟨"k", intSet, intSet, true, .none⟩] _
    (.step .start (fun _ s hs s' h => ?_) rfl)
  obtain rfl : s = intSet := hs.elim id id
  cases h
  rfl

end IEGen
