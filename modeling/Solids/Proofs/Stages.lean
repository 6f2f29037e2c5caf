import Solids.Proofs.Preorder
import Solids.Proofs.Transcript
import Solids.Recipe.Pipeline
/-!
# Solids.Proofs.Stages

**What is done for a recipe, in which order, and what stops it.** A recipe that is too large
gets no call of the modeller at all. For any other one there are the calls for its nodes, then
perhaps one that converts its lengths, and then a measurement. The first refusal ends it.

Main definitions:

* `Recipe.IsWithin`, `Recipe.Breaks` — the limits, and the first of them that is broken;
* `Recipe.Converts` — the call that converts lengths, where there is one;
* `Recipe.IsRun` — all calls of a run, with what comes of it.

Main statement: `Recipe.compile_isRun`.

The limits are stated of the tree itself: its size and levels by recursion, and the requests
for segments in the order of the document. That the loops of `Solids.Recipe.Measure` find
these is shown in `Solids.Proofs.Postorder` and `Solids.Proofs.Preorder`.
-/

namespace Solids

namespace Recipe

variable {K : Type}

/-! ### Limits -/

/-- A recipe that is not too large. -/
structure IsWithin (options : CompileOptions) (r : Recipe K) : Prop where
  /-- It does not have too many nodes. -/
  nodes : r.root.size ≤ options.maxNodes
  /-- It does not have too many levels. -/
  levels : r.root.levels ≤ maxLevels
  /-- No node asks for too many segments. -/
  segments : ∀ limit, options.maxSegments = some limit →
    ∀ e ∈ r.root.preorder .root, ∀ asked ∈ e.1.segments?, asked ≤ limit

/-- The first limit that a recipe does not keep. -/
inductive Breaks (options : CompileOptions) (r : Recipe K) : ComplexityError → Prop where
  /-- It has too many nodes. -/
  | nodes : options.maxNodes < r.root.size →
      Breaks options r (.tooManyNodes r.root.size options.maxNodes)
  /-- It has too many levels. -/
  | levels : r.root.size ≤ options.maxNodes → maxLevels < r.root.levels →
      Breaks options r (.tooDeep r.root.levels maxLevels)
  /-- A node asks for too many segments. It is the first of those that ask for the most. -/
  | segments {limit : UInt32} {path : Path} {most : UInt32} :
      r.root.size ≤ options.maxNodes → r.root.levels ≤ maxLevels →
      options.maxSegments = some limit →
      Node.IsBest (r.root.preorder .root) (some (path, most)) → limit < most →
      Breaks options r (.tooManySegments path most limit)

variable {options : CompileOptions} {r : Recipe K}

theorem Breaks.not_isWithin {e : ComplexityError} (h : r.Breaks options e) :
    ¬ r.IsWithin options := by
  intro hwithin
  cases h with
  | nodes hlt => exact hlt.not_ge hwithin.nodes
  | levels _ hlt => exact hlt.not_ge hwithin.levels
  | @segments limit path most _ _ hoption hbest hlt =>
    obtain ⟨earlier, later, n, horder, hn, -, -⟩ := hbest
    have hmem : (n, path) ∈ r.root.preorder .root := by simp [horder]
    exact UInt32.not_lt.mpr (hwithin.segments limit hoption (n, path) hmem most hn) hlt

theorem checkSegments_eq_ok_iff : r.checkSegments options = .ok () ↔
    ∀ limit, options.maxSegments = some limit →
      ∀ e ∈ r.root.preorder .root, ∀ asked ∈ e.1.segments?, asked ≤ limit := by
  have hbest := Node.isBest_maxSegments .root r.root
  unfold checkSegments
  cases hoption : options.maxSegments with
  | none => simp
  | some limit =>
    cases hmost : r.root.maxSegments .root with
    | none =>
      rw [hmost] at hbest
      have hnone : ∀ e ∈ r.root.preorder .root, e.1.segments? = none := hbest
      simp +contextual [hnone]
    | some best =>
      obtain ⟨path, most⟩ := best
      rw [hmost] at hbest
      have hle := hbest.le
      obtain ⟨earlier, later, n, horder, hn, -, -⟩ := hbest
      have hmem : (n, path) ∈ r.root.preorder .root := by simp [horder]
      simp only [Option.some.injEq, forall_eq']
      split
      · next hlt =>
        refine iff_of_false (by simp) fun hall => ?_
        exact UInt32.not_lt.mpr (hall (n, path) hmem most hn) hlt
      · next hnlt =>
        refine iff_of_true rfl fun e he asked hasked => ?_
        exact UInt32.le_trans (hle e he asked hasked) (UInt32.not_lt.mp hnlt)

theorem exists_of_checkSegments_eq_error {e : ComplexityError}
    (h : r.checkSegments options = .error e) : ∃ limit path most,
      options.maxSegments = some limit ∧ Node.IsBest (r.root.preorder .root) (some (path, most)) ∧
      limit < most ∧ e = .tooManySegments path most limit := by
  have hbest := Node.isBest_maxSegments .root r.root
  unfold checkSegments at h
  split at h
  · cases h
  · next limit hoption =>
    split at h
    · cases h
    · next path most hmost =>
      split at h
      · next hlt =>
        cases h
        exact ⟨limit, path, most, hoption, hmost ▸ hbest, hlt, rfl⟩
      · cases h

/-- What the check of the limits finds out. -/
theorem checkLimits_spec (options : CompileOptions) (r : Recipe K) :
    (∃ e, r.checkLimits options = .error e ∧ r.Breaks options e) ∨
      (r.checkLimits options = .ok r.root.count ∧ r.IsWithin options) := by
  unfold checkLimits
  simp only [Node.count_eq_size, Node.depth_eq_levels]
  split
  · next hnodes => exact .inl ⟨_, rfl, .nodes hnodes⟩
  · next hnodes =>
    rw [not_lt] at hnodes
    split
    · next hlevels => exact .inl ⟨_, rfl, .levels hnodes hlevels⟩
    · next hlevels =>
      rw [not_lt] at hlevels
      cases hsegments : r.checkSegments options with
      | ok u => exact .inr ⟨rfl, hnodes, hlevels, checkSegments_eq_ok_iff.mp hsegments⟩
      | error e =>
        obtain ⟨limit, path, most, hoption, hbest, hlt, rfl⟩ :=
          exists_of_checkSegments_eq_error hsegments
        exact .inl ⟨_, rfl, .segments hnodes hlevels hoption hbest hlt⟩

/-! ### Whole runs -/

section Runs

variable {G : Type} [Scalar K]

/-- The call that converts what was made to millimeters, if the lengths need it, and what
comes of that. -/
inductive Converts (options : CompileOptions) (r : Recipe K) (made : G) :
    List (Call K G) → Except (KernelError K) G → Prop where
  /-- Lengths are to be taken as they are written, or are in millimeters. -/
  | asWritten : options.units = .asWritten ∨ r.units.millimeters = 1 →
      Converts options r made [] (.ok made)
  /-- Lengths are to be converted from a larger unit. -/
  | scaled {factor : ℕ} (answer : Except (KernelError K) G) : options.units = .toMillimeters →
      r.units.millimeters = factor → factor ≠ 1 →
      Converts options r made [.perform (.move (.scale
        ⟨Scalar.ofNat factor, Scalar.ofNat factor, Scalar.ofNat factor⟩) made) answer] answer

variable [Trig K]

/-- The calls of a run, the oldest one first, and what comes of it. -/
inductive IsRun (options : CompileOptions) (r : Recipe K) :
    List (Call K G) → Except (RecipeError K) (Compiled K G) → Prop where
  /-- The recipe is too large, and nothing is asked for. -/
  | tooLarge {e : ComplexityError} : r.Breaks options e →
      IsRun options r [] (.error (.complexity e))
  /-- The call for a node is refused. -/
  | notMade {calls : List (Call K G)} {e : CompileError K} : r.IsWithin options →
      IsTranscript (r.root.postorder .root) calls (.error e) →
      IsRun options r calls (.error (.compile e))
  /-- The conversion is refused. -/
  | notConverted {calls conversion : List (Call K G)} {made : G} {s : KernelError K} :
      r.IsWithin options → IsTranscript (r.root.postorder .root) calls (.ok made) →
      r.Converts options made conversion (.error s) →
      IsRun options r (calls ++ conversion) (.error (.compile ⟨.root, s⟩))
  /-- The measurement is refused. -/
  | notMeasured {calls conversion : List (Call K G)} {made g : G} {s : KernelError K} :
      r.IsWithin options → IsTranscript (r.root.postorder .root) calls (.ok made) →
      r.Converts options made conversion (.ok g) →
      IsRun options r (calls ++ conversion ++ [.measure g (.error s)])
        (.error (.compile ⟨.root, s⟩))
  /-- Nothing is refused. There was one call for each node. -/
  | done {calls conversion : List (Call K G)} {made g : G} {box : BoundingBox K} :
      r.IsWithin options → IsTranscript (r.root.postorder .root) calls (.ok made) →
      calls.length = r.root.count → r.Converts options made conversion (.ok g) →
      IsRun options r (calls ++ conversion ++ [.measure g (.ok box)])
        (.ok { geometry := g, nodeCount := r.root.count, boundingBox := box })

end Runs

end Recipe

/-! ### Transcripts -/

section Transcripts

variable {m : Type → Type} [Monad m] [LawfulMonad m] {K G : Type}

theorem run_placed_measure_recorded (k : Kernel m K G) (path : Path) (g : G)
    (log : List (Call K G)) :
    (Kernel.placed path (k.recorded.measure g)).run.run log = do
      let answer ← (k.measure g).run
      return (answer.mapError (CompileError.mk path), log ++ [.measure g answer]) := by
  simp [Kernel.placed, Kernel.recorded]

theorem mirrors_placed_measure (k : Kernel m K G) (path : Path) (g : G) :
    Mirrors (Kernel.placed path (k.recorded.measure g)) (Kernel.placed path (k.measure g)) := by
  intro log
  rw [run_placed_measure_recorded]
  simp [Kernel.placed]

theorem adds_placed_measure (k : Kernel m K G) (path : Path) (g : G)
    {post : List (Call K G) → Except (CompileError K) (BoundingBox K) → Prop}
    (h : ∀ answer : Except (KernelError K) (BoundingBox K),
      post [.measure g answer] (answer.mapError (CompileError.mk path))) :
    Adds (Kernel.placed path (k.recorded.measure g)) post := by
  intro log
  rw [run_placed_measure_recorded]
  refine SatisfiesM.trivial.bind fun answer _ => ?_
  exact .pure ⟨_, rfl, h answer⟩

variable [Scalar K] [Trig K]

/-- A transcript that ends with a geometry has a call for each node. -/
theorem IsTranscript.length_eq {order : List (Node K × Path)} {calls : List (Call K G)} {g : G}
    (h : IsTranscript order calls (.ok g)) : calls.length = order.length := by
  refine (h.returned fun call hcall => ?_).1
  cases hrefusal : call.refusal? with
  | none => rfl
  | some s =>
    obtain ⟨i, hi⟩ := List.getElem?_of_mem hcall
    obtain ⟨-, e, -, hresult⟩ := h.refused i call s hi hrefusal
    cases hresult

theorem Kernel.adds_transcript (k : Kernel m K G) (path : Path) (n : Node K) :
    Adds (k.recorded.compileNode path n) (IsTranscript (n.postorder path)) := by
  have hnodup := Node.nodup_postorder path n
  intro log
  refine (adds_compileNode k path n log).imp fun ⟨calls, hcalls, hprogress⟩ => ?_
  refine ⟨calls, hcalls, ?_⟩
  rw [Node.postorder_eq] at hnodup hprogress ⊢
  exact hprogress.isTranscript hnodup

end Transcripts

/-! ### The run for a recipe -/

namespace Recipe

variable {m : Type → Type} [Monad m] {K G : Type} {options : CompileOptions} {r : Recipe K}

/-- What comes of a recipe that is within the limits, once its solid has been made and
measured. -/
def outcome (nodeCount : ℕ) : Except (CompileError K) (G × BoundingBox K) →
    Except (RecipeError K) (Compiled K G)
  | .error e => .error (.compile e)
  | .ok (geometry, boundingBox) => .ok { geometry, nodeCount, boundingBox }

/-- What was made, converted to millimeters if its lengths need it. -/
def convert [Scalar K] (k : Kernel m K G) (options : CompileOptions) (r : Recipe K) (made : G) :
    ExceptT (CompileError K) m G :=
  match r.unitScale? options with
  | some motion => k.performAt .root (.move motion made)
  | none => pure made

variable [LawfulMonad m] [Scalar K]

theorem mirrors_convert (k : Kernel m K G) (options : CompileOptions) (r : Recipe K) (made : G) :
    Mirrors (convert k.recorded options r made) (convert k options r made) := by
  unfold convert
  cases r.unitScale? options with
  | none => exact .pure made
  | some motion => exact mirrors_performAt k .root _

/-- There is one more call if lengths have to be converted. -/
theorem adds_convert (k : Kernel m K G) (options : CompileOptions) (r : Recipe K) (made : G) :
    Adds (convert k.recorded options r made) fun calls out =>
      ∃ answer, r.Converts options made calls answer ∧
        out = answer.mapError (CompileError.mk .root) := by
  unfold convert unitScale?
  split
  · next motion hmotion =>
    simp only [Option.ite_none_right_eq_some, Option.some.injEq] at hmotion
    obtain ⟨⟨hunits, hfactor⟩, rfl⟩ := hmotion
    exact adds_performAt k .root _ fun answer => ⟨answer, .scaled answer hunits rfl hfactor, rfl⟩
  · next hnone =>
    refine .pure made ⟨.ok made, .asWritten ?_, rfl⟩
    simp only [ite_eq_right_iff, reduceCtorEq, imp_false, not_and_or, not_not] at hnone
    refine hnone.imp_left fun hunits => ?_
    cases h : options.units with
    | asWritten => rfl
    | toMillimeters => exact absurd h hunits

variable [Trig K]

omit [LawfulMonad m] in
theorem run_compile_of_error (k : Kernel m K G) {e : ComplexityError}
    (h : r.checkLimits options = .error e) :
    (r.compile k options).run = pure (.error (.complexity e)) := by
  simp [compile, h]

theorem run_compile_of_ok (k : Kernel m K G) {nodeCount : ℕ}
    (h : r.checkLimits options = .ok nodeCount) :
    (r.compile k options).run = outcome nodeCount <$> (r.construct k options).run := by
  simp only [compile, h, ExceptT.run_mk, map_eq_pure_bind]
  congr 1
  funext out
  cases out <;> rfl

/-- A run that ends reports a limit that is broken, or what comes of making and measuring the
solid. -/
theorem run_compile_eq_some {k : Kernel Option K G} {out : Except (RecipeError K) (Compiled K G)}
    (h : (r.compile k options).run = some out) :
    (∃ e, r.Breaks options e ∧ out = .error (.complexity e)) ∨
      ∃ made, (r.construct k options).run = some made ∧ out = outcome r.root.count made := by
  rcases checkLimits_spec options r with ⟨e, herror, hbreaks⟩ | ⟨hok, -⟩
  · rw [run_compile_of_error _ herror] at h
    exact .inl ⟨e, hbreaks, (Option.some.inj h).symm⟩
  · rw [run_compile_of_ok _ hok] at h
    obtain ⟨made, hmade, hout⟩ := Option.map_eq_some_iff.mp h
    exact .inr ⟨made, hmade, hout.symm⟩

omit [LawfulMonad m] in
theorem construct_eq (k : Kernel m K G) (options : CompileOptions) (r : Recipe K) :
    r.construct k options = k.compileNode .root r.root >>= fun made =>
      convert k options r made >>= fun geometry =>
        Kernel.placed .root (k.measure geometry) >>= fun box => pure (geometry, box) := by
  unfold construct convert
  congr 1
  funext made
  cases r.unitScale? options <;> rfl

theorem mirrors_construct (k : Kernel m K G) (options : CompileOptions) (r : Recipe K) :
    Mirrors (r.construct k.recorded options) (r.construct k options) := by
  rw [construct_eq, construct_eq]
  exact (Kernel.mirrors_compileNode k .root r.root).bind fun made =>
    (mirrors_convert k options r made).bind fun geometry =>
      (mirrors_placed_measure k .root geometry).bind fun box => .pure (geometry, box)

/-- A recipe within the limits is made, converted and measured. -/
theorem adds_construct (k : Kernel m K G) (hwithin : r.IsWithin options) :
    Adds (r.construct k.recorded options) fun calls out =>
      r.IsRun options calls (outcome r.root.count out) := by
  rw [construct_eq]
  refine (Kernel.adds_transcript k .root r.root).bind ?made ?notMade
  case notMade =>
    intro calls e htranscript
    exact .notMade hwithin htranscript
  case made =>
    intro calls made htranscript
    -- the node count that is reported was counted beforehand, and not from the calls
    have hlength : calls.length = r.root.count :=
      htranscript.length_eq.trans (Node.length_postorder .root r.root)
    refine (adds_convert k options r made).bind ?converted ?notConverted
    case notConverted =>
      rintro conversion e ⟨answer, hconverts, he⟩
      cases answer with
      | ok g => cases he
      | error s =>
        cases he
        exact .notConverted hwithin htranscript hconverts
    case converted =>
      rintro conversion g ⟨answer, hconverts, hg⟩
      cases answer with
      | error s => cases hg
      | ok g =>
        cases hg
        have hmeasured : Adds (Kernel.placed .root (k.recorded.measure g)) fun last out =>
            r.IsRun options (calls ++ conversion ++ last)
              (outcome r.root.count (out.map (g, ·))) := by
          refine adds_placed_measure k .root g fun answer => ?_
          cases answer with
          | ok box => exact .done hwithin htranscript hlength hconverts
          | error s => exact .notMeasured hwithin htranscript hconverts
        refine hmeasured.bind ?_ ?_
        · intro last box hrun
          refine .pure _ ?_
          rw [List.append_nil, ← List.append_assoc]
          exact hrun
        · intro last e hrun
          rw [← List.append_assoc]
          exact hrun

/-- A recipe within the limits begins with what is done for its root. -/
theorem exists_run_compile_eq (k : Kernel m K G) (hok : r.checkLimits options = .ok r.root.count)
    (log : List (Call K G)) : ∃ rest, (r.compile k.recorded options).run.run log =
      (k.recorded.compileNode .root r.root).run.run log >>= rest := by
  rw [run_compile_of_ok _ hok, construct_eq, StateT.run_map, ExceptT.run_bind, StateT.run_bind,
    map_bind]
  exact ⟨_, rfl⟩

/-- Recording the calls changes nothing but the record. -/
theorem run_compile_recorded (k : Kernel m K G) (options : CompileOptions) (r : Recipe K) :
    Prod.fst <$> (r.compile k.recorded options).run.run [] = (r.compile k options).run := by
  rcases checkLimits_spec options r with ⟨e, herror, -⟩ | ⟨hok, -⟩
  · rw [run_compile_of_error _ herror, run_compile_of_error _ herror]
    simp
  · rw [run_compile_of_ok _ hok, run_compile_of_ok _ hok, StateT.run_map,
      ← mirrors_construct k options r []]
    simp

/-- Whatever the modeller answers, the calls and the outcome are those of a run. -/
theorem satisfiesM_isRun (k : Kernel m K G) (options : CompileOptions) (r : Recipe K) :
    SatisfiesM (fun run => r.IsRun options run.2 run.1)
      ((r.compile k.recorded options).run.run []) := by
  rcases checkLimits_spec options r with ⟨e, herror, hbreaks⟩ | ⟨hok, hwithin⟩
  · rw [run_compile_of_error _ herror]
    exact .pure (.tooLarge hbreaks)
  · rw [run_compile_of_ok _ hok, StateT.run_map]
    refine SatisfiesM.map (adds_construct k hwithin []) ?_
    rintro ⟨out, log⟩ ⟨calls, rfl, hrun⟩
    simpa using hrun

/-- **The stages of a recipe.** Whatever the modeller does, a run of a recipe that is too large
has no calls, nor any other effect, and reports the first limit that is broken. Any other run
begins with that for the root, which has the calls for the nodes of the recipe. Then come the
call that converts its lengths, if they need it, and the measurement of the final geometry. The
first refusal ends the run, and one of the last two calls is reported with the place of the
root. -/
theorem compile_isRun (k : Kernel m K G) (options : CompileOptions) (r : Recipe K) :
    Prod.fst <$> (r.compile k.recorded options).run.run [] = (r.compile k options).run ∧
      (¬ r.IsWithin options → ∃ e, r.Breaks options e ∧
        (r.compile k options).run = pure (.error (.complexity e))) ∧
      (r.IsWithin options → ∃ rest, (r.compile k.recorded options).run.run [] =
        (k.recorded.compileNode .root r.root).run.run [] >>= rest) ∧
      SatisfiesM (fun run => r.IsRun options run.2 run.1)
        ((r.compile k.recorded options).run.run []) := by
  refine ⟨run_compile_recorded k options r, ?tooLarge, ?within, satisfiesM_isRun k options r⟩
  case tooLarge =>
    intro hnot
    rcases checkLimits_spec options r with ⟨e, herror, hbreaks⟩ | ⟨-, hwithin⟩
    · exact ⟨e, hbreaks, run_compile_of_error k herror⟩
    · exact absurd hwithin hnot
  case within =>
    intro hwithin
    rcases checkLimits_spec options r with ⟨e, -, hbreaks⟩ | ⟨hok, -⟩
    · exact absurd hwithin hbreaks.not_isWithin
    · exact exists_run_compile_eq k hok []

/-- A recipe in centimeters, with a limit for segments that it keeps. Its solid is made of two
shapes, converted, and then refused to be measured. -/
theorem compile_isRun_centimeters : ∃ (r : Recipe ℝ) (options : CompileOptions)
    (calls : List (Call ℝ ℕ)),
    r = Recipe.mk 1 .cm none
      (.combine .union [.shape (.cuboid ⟨1, 1, 1⟩ none), .shape (.sphere 1 none (some 8))]) ∧
    options = { maxSegments := some 16, units := .toMillimeters } ∧
    calls = [.perform (.make (.cuboid ⟨1, 1, 1⟩ none)) (.ok 0),
      .perform (.make (.sphere 1 none (some 8))) (.ok 1), .perform (.combine .union [0, 1]) (.ok 2),
      .perform (.move (.scale ⟨Scalar.ofNat 10, Scalar.ofNat 10, Scalar.ofNat 10⟩) 2) (.ok 3),
      .measure 3 (.error (.noOperands .measure))] ∧
    (r.compile (Kernel.rehearsal none true).recorded options).run.run [] 0
      = ((.error (.compile ⟨.root, .noOperands .measure⟩), calls), 4) ∧
    r.IsRun options calls (.error (.compile ⟨.root, .noOperands .measure⟩)) := by
  refine ⟨_, _, _, rfl, rfl, rfl, ?_⟩
  set r : Recipe ℝ := Recipe.mk 1 .cm none
    (.combine .union [.shape (.cuboid ⟨1, 1, 1⟩ none), .shape (.sphere 1 none (some 8))]) with hr
  set options : CompileOptions := { maxSegments := some 16, units := .toMillimeters } with ho
  have hwithin : r.IsWithin options := by
    refine ⟨by decide, by decide, ?_⟩
    rintro limit ⟨⟩ e he asked hasked
    simp only [hr, Node.preorder, Node.preorderOfItems, List.append_nil, List.cons_append,
      List.nil_append, List.mem_cons, List.not_mem_nil, or_false] at he
    rcases he with rfl | rfl | rfl <;> cases hasked
    decide
  obtain ⟨e, -, hbreaks⟩ | ⟨hok, -⟩ := checkLimits_spec options r
  · exact absurd hwithin hbreaks.not_isWithin
  obtain ⟨-, -, -, hrun⟩ :=
    compile_isRun (Kernel.rehearsal none true : Kernel (StateM ℕ) ℝ ℕ) options r
  have hisRun := SatisfiesM_Id_eq.mp (SatisfiesM_StateT_eq.mp hrun 0)
  rw [run_compile_of_ok _ hok] at hisRun ⊢
  exact ⟨rfl, hisRun⟩

end Recipe

end Solids
