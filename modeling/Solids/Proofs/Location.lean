import Solids.Proofs.Relocation
import Solids.Proofs.Stages
import Solids.Proofs.Truthful
/-!
# Solids.Proofs.Location

**Every place that is reported leads back into the document.** A recipe that was read is walked
through several times: by the reader, by the search for the largest request for segments and by the
modeller. Each of these makes up the places of the nodes on its own. They are the same places, and
at each of them the document has an object that is this very node.

Main definitions:

* `Json.HoldsAt` — a node is read from the object at a place;
* `Recipe.Refused` — the node that a refusal is about.

Main statement: `Recipe.holdsAt_of_compileJson`.

The walks are followed as `Node.preorder` and `Node.postorder`, which list the nodes with their
places in the order in which the two come by. That they are what the walks do is shown in
`Solids.Proofs.Preorder` and `Solids.Proofs.Transcript`.
-/

namespace Solids

/-- At this place of the document is an object which is this node, wherever it is read. -/
def Json.HoldsAt (document : Json) (path : Path) (n : Node Double) : Prop :=
  ∃ fields, document.at? path = some (.object fields) ∧
    ∀ p, Node.ofJson p (.object fields) = .ok n

/-! ### Places of nodes -/

namespace Node

section

variable {K : Type}

mutual

/-- Both orders have the same nodes at the same places. -/
theorem perm_preorder (path : Path) : (n : Node K) → (n.preorder path).Perm (n.postorder path)
  | .shape s => .refl _
  | .combine combination children => by
    rw [preorder, postorder]
    have hbelow := perm_preorderOfItems (path.key "children") 0 children
    exact (hbelow.cons _).trans (List.perm_append_singleton _ _).symm
  | .move motion child => by
    rw [preorder, postorder]
    have hbelow := perm_preorder (path.key "child") child
    exact (hbelow.cons _).trans (List.perm_append_singleton _ _).symm

theorem perm_preorderOfItems (path : Path) (i : ℕ) : (ns : List (Node K)) →
    (preorderOfItems path i ns).Perm (postorderOfItems path i ns)
  | [] => .refl _
  | n :: rest => (perm_preorder (path.index i) n).append (perm_preorderOfItems path (i + 1) rest)

end

end

/-- A node that is read is read from an object, and at any place. -/
theorem holdsAt_of_isNode {d v : Json} {path : Path} {n : Node Double} (hat : d.at? path = some v)
    (hnode : v.IsNode n) (hlevels : n.levels ≤ 60) : d.HoldsAt path n := by
  obtain ⟨fields, rfl⟩ := hnode.hasType.exists_eq_object
  exact ⟨fields, hat, fun p => (Recipe.reads_nodeOfJson p _ n).mpr ⟨hnode, hlevels⟩⟩

mutual

/-- A node that is at its place has everything below it at its place, too. -/
theorem holdsAt_of_mem_preorder {d : Json} (path : Path) : (n : Node Double) → ∀ v,
    d.at? path = some v → v.IsNode n → n.levels ≤ 60 → ∀ e ∈ n.preorder path, d.HoldsAt e.2 e.1
  | .shape s, v, hat, hnode, hlevels, e, he => by
    obtain rfl := List.mem_singleton.mp he
    exact holdsAt_of_isNode hat hnode hlevels
  | .combine combination children, v, hat, hnode, hlevels, e, he => by
    rcases List.mem_cons.mp he with rfl | he
    · exact holdsAt_of_isNode hat hnode hlevels
    · cases hnode with
      | combine _ hfield _ hitems =>
        refine holdsAt_of_mem_preorderOfItems (path.key "children") 0 children _ ?_ hitems
          (Nat.le_of_succ_le hlevels) e he
        intro j w hw
        rw [Nat.zero_add]
        exact Json.at?_index (Json.at?_key hat hfield) hw
  | .move motion child, v, hat, hnode, hlevels, e, he => by
    rcases List.mem_cons.mp he with rfl | he
    · exact holdsAt_of_isNode hat hnode hlevels
    · cases hnode with
      | move _ hfield hchild =>
        exact holdsAt_of_mem_preorder (path.key "child") child _ (Json.at?_key hat hfield) hchild
          (Nat.le_of_succ_le hlevels) e he

theorem holdsAt_of_mem_preorderOfItems {d : Json} (path : Path) (i : ℕ) :
    (ns : List (Node Double)) → ∀ items : List Json,
    (∀ j w, items[j]? = some w → d.at? (path.index (i + j)) = some w) →
    List.Forall₂ Json.IsNode items ns → levelsOfAll ns ≤ 60 →
    ∀ e ∈ preorderOfItems path i ns, d.HoldsAt e.2 e.1
  | [], _, _, _, _, e, he => by simp [preorderOfItems] at he
  | n :: rest, _, hat, hitems, hlevels, e, he => by
    obtain ⟨hn, hrest⟩ := max_le_iff.mp hlevels
    cases hitems with
    | @cons w _ others _ hnode hothers =>
      rcases List.mem_append.mp he with he | he
      · exact holdsAt_of_mem_preorder (path.index i) n w (hat 0 w rfl) hnode hn e he
      · refine holdsAt_of_mem_preorderOfItems path (i + 1) rest others ?_ hothers hrest e he
        intro j w' hw'
        have hlater := hat (j + 1) w' hw'
        rwa [show i + (j + 1) = i + 1 + j by omega] at hlater

end

end Node

namespace Recipe

/-- All nodes of a recipe that was read are at their places. -/
theorem holdsAt_of_ofJson {v : Json} {r : Recipe Double} (h : ofJson v = .ok r) {n : Node Double}
    {path : Path} (hmem : (n, path) ∈ r.root.preorder .root) : v.HoldsAt path n := by
  have hr := isRecipe_of_ofJson h
  obtain ⟨w, hfield, hnode⟩ := hr.root
  exact Node.holdsAt_of_mem_preorder .root r.root w (Json.at?_key rfl hfield) hnode hr.levels _ hmem

/-! ### Refusals -/

variable {m : Type → Type} [Monad m] {G : Type} {options : CompileOptions} {r : Recipe Double}
  {calls : List (Call Double G)} {s : KernelError Double} {path : Path} {n : Node Double}

/-- The last of the calls was refused, and this is the node it was made for. The calls after those
for the nodes are made for the recipe as a whole, which is its root. -/
inductive Refused (r : Recipe Double) (calls : List (Call Double G)) (s : KernelError Double) :
    Path → Node Double → Prop where
  /-- A call that makes a node. -/
  | making {earlier : List (Call Double G)} {operation : Operation Double G} {operands : List G}
      {path : Path} {n : Node Double} : calls = earlier ++ [.perform operation (.error s)] →
      (r.root.postorder .root)[earlier.length]? = some (n, path) → n.Asks operands operation →
      Refused r calls s path n
  /-- The conversion or the measurement. -/
  | finishing {earlier : List (Call Double G)} {call : Call Double G} : calls = earlier ++ [call] →
      call.refusal? = some s → r.root.count ≤ earlier.length → Refused r calls s .root r.root

theorem Refused.mem_preorder (h : r.Refused calls s path n) :
    (n, path) ∈ r.root.preorder .root := by
  cases h with
  | making _ horder _ =>
    exact (Node.perm_preorder .root r.root).mem_iff.mpr (List.mem_of_getElem? horder)
  | finishing =>
    rw [Node.preorder_eq]
    exact List.mem_cons_self

/-- A transcript that ends with a refusal ends with the call for the node it is about. -/
theorem refused_of_isTranscript {e : CompileError Double}
    (h : IsTranscript (r.root.postorder .root) calls (.error e)) :
    ∃ n, r.Refused calls e.source e.path n := by
  obtain ⟨call, hcall, hrefusal⟩ : ∃ call ∈ calls, call.refusal? ≠ none := by
    by_contra hno
    push Not at hno
    obtain ⟨-, call, g, -, -, hresult⟩ := h.returned hno
    cases hresult
  obtain ⟨s, hs⟩ := Option.ne_none_iff_exists'.mp hrefusal
  obtain ⟨i, hi⟩ := List.getElem?_of_mem hcall
  obtain ⟨hlength, ⟨n, path⟩, horder, hresult⟩ := h.refused i call s hi hs
  cases hresult
  -- the call is the one that its node asks for
  have hzip : ((n, path), call) ∈ (r.root.postorder .root).zip calls :=
    List.mem_of_getElem? (List.getElem?_zip_eq_some.mpr ⟨horder, hi⟩)
  obtain ⟨operation, operands, answer, hperform, hasks, -⟩ := h.asked _ hzip
  obtain rfl : call = .perform operation answer := hperform
  obtain rfl : answer = .error s := by
    cases answer with
    | ok g => cases hs
    | error s' => exact congrArg Except.error (Option.some.inj hs)
  obtain ⟨earlier, last, rfl⟩ := (List.eq_nil_or_concat' calls).resolve_left
    (List.ne_nil_of_mem hcall)
  obtain rfl : earlier.length = i := by simpa using hlength
  obtain rfl : last = .perform operation (.error s) := by simpa using hi
  exact ⟨n, .making rfl horder hasks⟩

/-- A run that ends with a compile error ends with the call that was refused. -/
theorem refused_of_isRun {e : CompileError Double}
    (h : r.IsRun options calls (.error (.compile e))) : ∃ n, r.Refused calls e.source e.path n := by
  have made {calls : List (Call Double G)} {g : G}
      (h : IsTranscript (r.root.postorder .root) calls (.ok g)) : calls.length = r.root.count :=
    h.length_eq.trans (Node.length_postorder .root r.root)
  generalize hout : (Except.error (RecipeError.compile e) : Except _ (Compiled Double G)) = out at h
  cases h with
  | notMade _ htranscript =>
    cases hout
    exact refused_of_isTranscript htranscript
  | notConverted _ htranscript hconverts =>
    cases hout
    cases hconverts with
    | scaled => exact ⟨_, .finishing rfl rfl (made htranscript).ge⟩
  | notMeasured _ htranscript hconverts =>
    cases hout
    refine ⟨_, .finishing rfl rfl ?_⟩
    rw [List.length_append, made htranscript]
    exact Nat.le_add_right _ _
  | tooLarge => cases hout
  | done => cases hout

/-- A run that ends because of segments ends because of those a node asks for. -/
theorem exists_of_tooManySegments {asked limit : UInt32}
    (h : r.IsRun options calls (.error (.complexity (.tooManySegments path asked limit)))) :
    ∃ n, (n, path) ∈ r.root.preorder .root ∧ n.segments? = some asked ∧
      options.maxSegments = some limit ∧ limit < asked := by
  generalize hout : (Except.error (RecipeError.complexity (.tooManySegments path asked limit)) :
    Except _ (Compiled Double G)) = out at h
  cases h with
  | tooLarge hbreaks =>
    cases hout
    cases hbreaks with
    | segments _ _ hoption hbest hlt =>
      obtain ⟨earlier, later, n, horder, hn, -, -⟩ := hbest
      exact ⟨n, by simp [horder], hn, hoption, hlt⟩
  | notMade => cases hout
  | notConverted => cases hout
  | notMeasured => cases hout
  | done => cases hout

/-! ### Runs for a value -/

variable [LawfulMonad m]

/-- A run for a value that is a recipe is a run for the recipe. -/
theorem run_compileJson_spec (k : Kernel m Double G) (options : CompileOptions) (v : Json) :
    Prod.fst <$> (compileJson k.recorded options v).run.run [] = (compileJson k options v).run ∧
      SatisfiesM (fun run => match ofJson v with
          | .error e => run.1 = .error (.validation e)
          | .ok r => r.IsRun options run.2 run.1)
        ((compileJson k.recorded options v).run.run []) := by
  unfold compileJson
  cases ofJson v with
  | error e => exact ⟨by simp, .pure rfl⟩
  | ok r => exact ⟨run_compile_recorded k options r, satisfiesM_isRun k options r⟩

/-- **What is reported leads back into the document.** All nodes of a recipe that was read are at
their places, which are the same for all walks. So if the modeller is asked for a recipe that a
value is, and the recipe asks for too many segments or the modeller refuses, then what is at the
place in the report is the node that asked, or the one that the refused call was made for. The
place at which a node is read has no influence on what it is nor, from there on, on what is wrong
with it. -/
theorem holdsAt_of_compileJson (k : Kernel m Double G) (options : CompileOptions) (v : Json) :
    (∀ r, ofJson v = .ok r → (r.root.preorder .root).Perm (r.root.postorder .root) ∧
      ∀ n path, (n, path) ∈ r.root.preorder .root → v.HoldsAt path n) ∧
    Prod.fst <$> (compileJson k.recorded options v).run.run [] = (compileJson k options v).run ∧
    SatisfiesM (fun run =>
        (∀ path asked limit,
          run.1 = .error (.complexity (.tooManySegments path asked limit)) → ∃ r n,
            ofJson v = .ok r ∧ (n, path) ∈ r.root.preorder .root ∧ n.segments? = some asked ∧
              options.maxSegments = some limit ∧ limit < asked ∧ v.HoldsAt path n) ∧
        ∀ path s, run.1 = .error (.compile ⟨path, s⟩) → ∃ r n,
          ofJson v = .ok r ∧ r.Refused run.2 s path n ∧ v.HoldsAt path n)
      ((compileJson k.recorded options v).run.run []) ∧
    ∀ w p q, (∃ n, Node.ofJson p w = .ok n ∧ Node.ofJson q w = .ok n) ∨
      ∃ suffix cause, Node.ofJson p w = .error ⟨p.join suffix, cause⟩ ∧
        Node.ofJson q w = .error ⟨q.join suffix, cause⟩ := by
  obtain ⟨hmirrors, hruns⟩ := run_compileJson_spec k options v
  refine ⟨?places, hmirrors, hruns.imp ?reports, Node.ofJson_eq_or_eq⟩
  case places =>
    intro r hr
    exact ⟨Node.perm_preorder .root r.root, fun n path => holdsAt_of_ofJson hr⟩
  case reports =>
    intro run hrun
    obtain ⟨out, calls⟩ := run
    cases hr : ofJson v with
    | error e =>
      rw [hr] at hrun
      obtain rfl : out = .error (.validation e) := hrun
      exact ⟨nofun, nofun⟩
    | ok r =>
      rw [hr] at hrun
      constructor
      · rintro path asked limit rfl
        obtain ⟨n, hmem, hasked, hoption, hlt⟩ := exists_of_tooManySegments hrun
        exact ⟨r, n, rfl, hmem, hasked, hoption, hlt, holdsAt_of_ofJson hr hmem⟩
      · rintro path s rfl
        obtain ⟨n, hrefused⟩ := refused_of_isRun hrun
        exact ⟨r, n, rfl, hrefused, holdsAt_of_ofJson hr hrefused.mem_preorder⟩

/-- A ball that is the child of the second child of the root. With a limit it asks for too many
segments; without one it is the second node that is made, and that call is refused. -/
theorem holdsAt_of_compileJson_ball : ∃ (v : Json) (path : Path) (ball : Node Double)
    (calls : List (Call Double ℕ)),
    v = .object [("version", .ofNat 1), ("root", .object [("type", .string "union"),
      ("children", .array [
        .object [("type", .string "cuboid"), ("size", .array [.ofNat 1, .ofNat 1, .ofNat 1])],
        .object [("type", .string "translate"), ("offset", .array [.ofNat 1, .ofNat 2, .ofNat 3]),
          ("child", .object [("type", .string "sphere"), ("radius", .ofNat 1),
            ("segments", .ofNat 8)])]])])] ∧
    path = ((Path.root.key "children").index 1).key "child" ∧
    ball = .shape (.sphere (Number.natural 1).toDouble none (some 8)) ∧ v.HoldsAt path ball ∧
    ((compileJson (Kernel.rehearsal none false).recorded
      { maxSegments := some 6 } v).run.run [] 0).1 =
        (.error (.complexity (.tooManySegments path 8 6)), []) ∧
    (∃ r n, ofJson v = .ok r ∧ (n, path) ∈ r.root.preorder .root ∧ n.segments? = some 8 ∧
      v.HoldsAt path n) ∧
    ((compileJson (Kernel.rehearsal (some 1) false).recorded {} v).run.run [] 0).1
      = (.error (.compile ⟨path, .nonFinite⟩), calls) ∧
    ∃ r n, ofJson v = .ok r ∧ r.Refused calls .nonFinite path n ∧ v.HoldsAt path n := by
  set one : Double := (Number.natural 1).toDouble
  set ball : Node Double := .shape (.sphere one none (some 8))
  set r : Recipe Double := Recipe.mk 1 .mm none (.combine .union
    [.shape (.cuboid ⟨one, one, one⟩ none),
      .move (.translate ⟨one, (Number.natural 2).toDouble, (Number.natural 3).toDouble⟩) ball])
  refine ⟨_, _, ball, [.perform (.make (.cuboid ⟨one, one, one⟩ none)) (.ok 0),
    .perform (.make (.sphere one none (some 8))) (.error .nonFinite)], rfl, rfl, rfl, ?_⟩
  set v : Json := .object _
  have hball : Json.IsNode (.object [("type", .string "sphere"), ("radius", .ofNat 1),
      ("segments", .ofNat 8)]) ball :=
    .shape (.sphere rfl ⟨_, rfl, .number (by decide)⟩ rfl ⟨_, rfl, .number (by decide) (by decide)⟩)
  have hr : v.IsRecipe r := by
    refine ⟨⟨_, rfl, by decide⟩, rfl, ⟨none, rfl, rfl⟩, rfl, ⟨_, rfl, ?_⟩, by decide⟩
    refine .combine (.union rfl) rfl (by simp) (.cons (.shape ?_) (.cons (.move ?_ rfl hball) .nil))
    · exact .cuboid rfl ⟨_, rfl, .numbers _ _ _⟩ rfl
    · exact .translate rfl ⟨_, rfl, .numbers _ _ _⟩
  have hread : ofJson v = .ok r := ofJson_of_isRecipe hr
  have hlimited : r.checkLimits { maxSegments := some 6 } = .error
      (.tooManySegments (((Path.root.key "children").index 1).key "child") 8 6) := by
    simp only [checkLimits, checkSegments, Node.count_eq_size, Node.depth_eq_levels,
      Node.maxSegments, Node.largestRequestFrom_eq]
    rfl
  have hfree : r.checkLimits {} = .ok 4 := by
    simp only [checkLimits, checkSegments, Node.count_eq_size, Node.depth_eq_levels]
    rfl
  obtain ⟨hplaces, -, hlimitedRuns, -⟩ := holdsAt_of_compileJson
    (Kernel.rehearsal none false : Kernel (StateM ℕ) Double ℕ) { maxSegments := some 6 } v
  obtain ⟨-, -, hfreeRuns, -⟩ := holdsAt_of_compileJson
    (Kernel.rehearsal (some 1) false : Kernel (StateM ℕ) Double ℕ) {} v
  have hlimitedRun := SatisfiesM_Id_eq.mp (SatisfiesM_StateT_eq.mp hlimitedRuns 0)
  have hfreeRun := SatisfiesM_Id_eq.mp (SatisfiesM_StateT_eq.mp hfreeRuns 0)
  simp only [compileJson, hread] at hlimitedRun hfreeRun ⊢
  rw [run_compile_of_error _ hlimited] at hlimitedRun ⊢
  rw [run_compile_of_ok _ hfree] at hfreeRun ⊢
  refine ⟨(hplaces r hread).2 _ _ ?place, rfl, ?limited, rfl, ?refused⟩
  case place => exact .tail _ (.tail _ (.tail _ (.head _)))
  case limited =>
    obtain ⟨r', n, hr', hmem, hasked, -, -, hholds⟩ := hlimitedRun.1 _ _ _ rfl
    exact ⟨r', n, hr', hmem, hasked, hholds⟩
  case refused => exact hfreeRun.2 _ _ rfl

end Recipe

end Solids
