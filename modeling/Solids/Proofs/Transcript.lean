import Solids.Proofs.Exact
import Solids.Proofs.Postorder
import Solids.Recipe.Compile
/-!
# Solids.Proofs.Transcript

**What a modeller is asked for.** Whatever a modeller does and whichever calls it refuses,
the nodes of a recipe are made from the bottom up, with one call for each.

`Kernel.recorded` keeps every call of a modeller with its answer, the oldest first, and does
not change what comes of a run. A run of `Kernel.compileNode` is then described by what it
has done so far, `Progress`, and the recursion is followed without looking at the modeller:
what one child has done and what the next one does are put together by `Progress.append`,
and the call for the node itself by `Progress.call`. A refusal ends all of it by
`Progress.stop`.

Main definitions:

* `Call`, `Kernel.recorded` — calls with their answers, and a modeller that keeps them;
* `Node.Asks` — the operation that a node asks for;
* `IsTranscript` — the calls of a whole run.

Main statement: `Kernel.compileNode_isTranscript`.
-/

namespace Solids

/-! ### Calls -/

/-- A call of a modeller with its answer. -/
inductive Call (K G : Type) where
  /-- An operation and what came of it. -/
  | perform (operation : Operation K G) (answer : Except (KernelError K) G)
  /-- A measurement and what came of it. -/
  | measure (geometry : G) (answer : Except (KernelError K) (BoundingBox K))

namespace Call

variable {K G : Type}

/-- The geometries that a call uses up. A measurement looks at one and leaves it. -/
def operands : Call K G → List G
  | .perform operation _ => operation.operands
  | .measure _ _ => []

/-- The geometry that a call hands out. -/
def result? : Call K G → Option G
  | .perform _ answer => answer.toOption
  | .measure _ _ => none

/-- The refusal, if the call was refused. -/
def refusal? : Call K G → Option (KernelError K)
  | .perform _ (.error s) => some s
  | .measure _ (.error s) => some s
  | _ => none

variable (operation : Operation K G) (g : G) (s : KernelError K)

@[simp] theorem operands_perform (answer : Except (KernelError K) G) :
    (perform operation answer).operands = operation.operands := rfl

@[simp] theorem result?_ok : (perform operation (.ok g)).result? = some g := rfl

@[simp] theorem result?_error : (perform operation (.error s)).result? = none := rfl

@[simp] theorem refusal?_ok : (perform operation (.ok g)).refusal? = none := rfl

@[simp] theorem refusal?_error : (perform operation (.error s)).refusal? = some s := rfl

end Call

/-- A modeller with a record of its calls and their answers, the oldest one first. -/
def Kernel.recorded {m : Type → Type} [Monad m] {K G : Type} (k : Kernel m K G) :
    Kernel (StateT (List (Call K G)) m) K G where
  perform operation := ExceptT.mk <| StateT.mk fun log => do
    let answer ← (k.perform operation).run
    return (answer, log ++ [.perform operation answer])
  measure g := ExceptT.mk <| StateT.mk fun log => do
    let answer ← (k.measure g).run
    return (answer, log ++ [.measure g answer])

/-! ### What a node asks for -/

/-- The operation that a node asks for, given what was made of its children: its own kind
with its own parameters, except that angles are turned into radians. -/
inductive Node.Asks {K G : Type} [Scalar K] [Trig K] : Node K → List G → Operation K G → Prop where
  /-- A shape is made as it is written. -/
  | shape (s : Shape K) : Asks (.shape s) [] (.make s)
  /-- Children are combined in their order. -/
  | combine (c : Combination) (children : List (Node K)) (operands : List G) :
      Asks (.combine c children) operands (.combine c operands)
  /-- The offset is taken as it is written. -/
  | translate (offset : Vec3 K) (child : Node K) (g : G) :
      Asks (.move (.translate offset) child) [g] (.move (.translate offset) g)
  /-- Each angle is multiplied by one degree. -/
  | rotate (angles : Vec3 K) (child : Node K) (g : G) :
      Asks (.move (.rotate angles) child) [g] (.move (.rotate ⟨angles.x * Trig.degree,
        angles.y * Trig.degree, angles.z * Trig.degree⟩) g)
  /-- The factors are taken as they are written. -/
  | scale (factors : Vec3 K) (child : Node K) (g : G) :
      Asks (.move (.scale factors) child) [g] (.move (.scale factors) g)

namespace Node.Asks

variable {K G : Type} [Scalar K] [Trig K] {n : Node K} {operands : List G}
  {operation : Operation K G}

theorem operands_eq (h : n.Asks operands operation) : operation.operands = operands := by
  cases h <;> rfl

theorem of_motion (motion : Motion K) (child : Node K) (g : G) :
    (Node.move motion child).Asks [g] (.move motion.inRadians g) := by
  cases motion with
  | translate offset => exact .translate offset child g
  | rotate angles => exact .rotate angles child g
  | scale factors => exact .scale factors child g

end Node.Asks

/-! ### What has been done -/

section Progress

variable {K G : Type}

/-- The geometry was handed out by a call for the node. -/
def MadeBy (log : List ((Node K × Path) × Call K G)) (child : Node K × Path) (g : G) : Prop :=
  ∃ operation, (child, .perform operation (.ok g)) ∈ log

theorem MadeBy.mono {log log' : List ((Node K × Path) × Call K G)} (h : log ⊆ log')
    {child : Node K × Path} {g : G} (hmade : MadeBy log child g) : MadeBy log' child g :=
  hmade.imp fun _ hmem => h hmem

variable [Scalar K] [Trig K]

/-- The call is the one that the node asks for, and its operands are what was made of the
children of the node, in their order. -/
def CallsFor (log : List ((Node K × Path) × Call K G)) (e : Node K × Path) (call : Call K G) :
    Prop :=
  ∃ operation operands answer, call = .perform operation answer ∧ e.1.Asks operands operation ∧
    List.Forall₂ (MadeBy log) (e.1.placedChildren e.2) operands

/-- The calls for the nodes of `order`, up to the first one that was refused. If none was,
the outcome is what was made of `roots`. -/
structure Progress (order roots : List (Node K × Path)) (calls : List (Call K G))
    (outcome : Except (CompileError K) (List G)) : Prop where
  /-- Each call is for its node. -/
  asked : ∀ e ∈ order.zip calls, CallsFor (order.zip calls) e.1 e.2
  /-- Unless there is a refusal, there is a call for every node. -/
  made : ∀ gs, outcome = .ok gs → calls.length = order.length ∧
    (∀ call ∈ calls, call.refusal? = none) ∧ List.Forall₂ (MadeBy (order.zip calls)) roots gs
  /-- A refusal is that of the last call, and about its node. -/
  refused : ∀ error, outcome = .error error → ∃ earlier operation n,
    calls = earlier ++ [.perform operation (.error error.source)] ∧
      (∀ call ∈ earlier, call.refusal? = none) ∧ order[earlier.length]? = some (n, error.path)
  /-- What was handed out has been used once, or is there still. -/
  used : ∃ unused, (calls.flatMap Call.operands ++ unused).Perm (calls.filterMap Call.result?) ∧
    ∀ gs, outcome = .ok gs → unused = gs

variable {log log' : List ((Node K × Path) × Call K G)} {order order₁ order₂ roots roots₁ roots₂ :
  List (Node K × Path)} {calls calls₁ calls₂ : List (Call K G)} {gs gs₁ : List G}
  {outcome : Except (CompileError K) (List G)} {n : Node K} {path : Path}

theorem CallsFor.mono (h : log ⊆ log') {e : Node K × Path} {call : Call K G}
    (hcalls : CallsFor log e call) : CallsFor log' e call := by
  obtain ⟨operation, operands, answer, hcall, hasks, hmade⟩ := hcalls
  exact ⟨operation, operands, answer, hcall, hasks, hmade.imp fun _ _ => MadeBy.mono h⟩

namespace Progress

theorem length_le (h : Progress order roots calls outcome) : calls.length ≤ order.length := by
  cases outcome with
  | ok gs => exact (h.made gs rfl).1.le
  | error error =>
    obtain ⟨earlier, operation, n, rfl, -, hn⟩ := h.refused error rfl
    have hlt := (List.getElem?_eq_some_iff.mp hn).1
    simpa using hlt

theorem nil : Progress (K := K) (G := G) [] [] [] (.ok []) where
  asked := by simp
  made := by simp
  refused := by simp
  used := ⟨[], by simp⟩

/-- What comes later changes nothing about calls that end with a refusal. -/
theorem stop {error : CompileError K} (h : Progress order₁ roots₁ calls (.error error))
    (order₂ roots : List (Node K × Path)) :
    Progress (order₁ ++ order₂) roots calls (.error error) := by
  have hle := h.length_le
  have hzip : (order₁ ++ order₂).zip calls = order₁.zip calls := by
    refine List.zip_eq_zip_take_min.trans (.trans ?_ List.zip_eq_zip_take_min.symm)
    rw [min_eq_right hle, min_eq_right (hle.trans (by simp)), List.take_append_of_le_length hle]
  refine ⟨?asked, ?made, ?refused, ?used⟩
  case asked =>
    rw [hzip]
    exact h.asked
  case made =>
    intro gs hgs
    cases hgs
  case refused =>
    intro error' herror
    obtain ⟨earlier, operation, n, hcalls, hearlier, hn⟩ := h.refused error' herror
    refine ⟨earlier, operation, n, hcalls, hearlier, ?_⟩
    rw [List.getElem?_append_left (List.getElem?_eq_some_iff.mp hn).1, hn]
  case used =>
    obtain ⟨unused, hperm, -⟩ := h.used
    exact ⟨unused, hperm, by simp⟩

/-- One part after the other. -/
theorem append (h₁ : Progress order₁ roots₁ calls₁ (.ok gs₁))
    (h₂ : Progress order₂ roots₂ calls₂ outcome) :
    Progress (order₁ ++ order₂) (roots₁ ++ roots₂) (calls₁ ++ calls₂)
      (outcome.map (gs₁ ++ ·)) := by
  obtain ⟨hlength, hok, hmade⟩ := h₁.made gs₁ rfl
  -- the first part has a call for each of its nodes, so the second one begins where it should
  have hzip : (order₁ ++ order₂).zip (calls₁ ++ calls₂) = order₁.zip calls₁ ++ order₂.zip calls₂ :=
    List.zip_append hlength.symm
  have hleft : order₁.zip calls₁ ⊆ (order₁ ++ order₂).zip (calls₁ ++ calls₂) :=
    hzip ▸ List.subset_append_left _ _
  have hright : order₂.zip calls₂ ⊆ (order₁ ++ order₂).zip (calls₁ ++ calls₂) :=
    hzip ▸ List.subset_append_right _ _
  refine ⟨?asked, ?made, ?refused, ?used⟩
  case asked =>
    intro e he
    rw [hzip, List.mem_append] at he
    rcases he with he | he
    · exact (h₁.asked e he).mono hleft
    · exact (h₂.asked e he).mono hright
  case made =>
    intro gs hgs
    cases outcome with
    | error error => cases hgs
    | ok gs₂ =>
      cases hgs
      obtain ⟨hlength₂, hok₂, hmade₂⟩ := h₂.made gs₂ rfl
      refine ⟨by simp [hlength, hlength₂], List.forall_mem_append.mpr ⟨hok, hok₂⟩, ?_⟩
      exact List.rel_append (hmade.imp fun _ _ => MadeBy.mono hleft)
        (hmade₂.imp fun _ _ => MadeBy.mono hright)
  case refused =>
    intro error herror
    cases outcome with
    | ok gs₂ => cases herror
    | error error' =>
      cases herror
      obtain ⟨earlier, operation, n, rfl, hearlier, hn⟩ := h₂.refused error rfl
      refine ⟨calls₁ ++ earlier, operation, n, by simp,
        List.forall_mem_append.mpr ⟨hok, hearlier⟩, ?_⟩
      rw [List.length_append, hlength, List.getElem?_append_right (by omega)]
      simpa using hn
  case used =>
    obtain ⟨unused₁, hperm₁, hunused₁⟩ := h₁.used
    obtain ⟨unused₂, hperm₂, hunused₂⟩ := h₂.used
    refine ⟨unused₁ ++ unused₂, ?_, ?_⟩
    · rw [List.flatMap_append, List.filterMap_append]
      refine List.Perm.trans ?_ (hperm₁.append hperm₂)
      -- what the second part used comes before what the first one has left over
      simp only [List.append_assoc]
      refine List.Perm.append_left _ ?_
      rw [← List.append_assoc, ← List.append_assoc]
      exact List.perm_append_comm.append_right _
    · intro gs hgs
      cases outcome with
      | error error => cases hgs
      | ok gs₂ =>
        cases hgs
        rw [hunused₁ gs₁ rfl, hunused₂ gs₂ rfl]

/-- The call for a node, after those for all that is below it. -/
theorem call {operation : Operation K G} (h : Progress order (n.placedChildren path) calls (.ok gs))
    (hasks : n.Asks gs operation) (answer : Except (KernelError K) G) :
    Progress (order ++ [(n, path)]) [(n, path)] (calls ++ [.perform operation answer])
      ((answer.mapError (CompileError.mk path)).map ([·])) := by
  obtain ⟨hlength, hok, hmade⟩ := h.made gs rfl
  have hzip : (order ++ [(n, path)]).zip (calls ++ [.perform operation answer])
      = order.zip calls ++ [((n, path), .perform operation answer)] :=
    List.zip_append hlength.symm
  have hleft : order.zip calls
      ⊆ (order ++ [(n, path)]).zip (calls ++ [.perform operation answer]) :=
    hzip ▸ List.subset_append_left _ _
  refine ⟨?asked, ?made, ?refused, ?used⟩
  case asked =>
    intro e he
    rw [hzip, List.mem_append, List.mem_singleton] at he
    rcases he with he | rfl
    · exact (h.asked e he).mono hleft
    · exact ⟨operation, gs, answer, rfl, hasks, hmade.imp fun _ _ => MadeBy.mono hleft⟩
  case made =>
    intro gs' hgs
    cases answer with
    | error s => cases hgs
    | ok g =>
      cases hgs
      refine ⟨by simp [hlength], List.forall_mem_append.mpr ⟨hok, by simp⟩, ?_⟩
      have hmem : ((n, path), .perform operation (.ok g)) ∈
          (order ++ [(n, path)]).zip (calls ++ [.perform operation (.ok g)]) := by
        rw [hzip]
        simp
      exact .cons ⟨operation, hmem⟩ .nil
  case refused =>
    intro error herror
    cases answer with
    | ok g => cases herror
    | error s =>
      cases herror
      exact ⟨calls, operation, n, rfl, hok, by simp [hlength]⟩
  case used =>
    -- what was there goes into the call, and what the call hands out is new
    obtain ⟨unused, hperm, hunused⟩ := h.used
    rw [hunused gs rfl] at hperm
    cases answer with
    | ok g =>
      refine ⟨[g], ?_, ?_⟩
      · simpa [hasks.operands_eq] using hperm.append_right [g]
      · intro gs' hgs
        cases hgs
        rfl
    | error s =>
      refine ⟨[], ?_, ?_⟩
      · simpa [hasks.operands_eq, List.filterMap_cons] using hperm
      · intro gs' hgs
        cases hgs

end Progress

/-! ### Whole runs -/

/-- The calls of a run that makes the last node of `order`, and what came of it. -/
structure IsTranscript (order : List (Node K × Path)) (calls : List (Call K G))
    (result : Except (CompileError K) G) : Prop where
  /-- There is at most one call for each node. -/
  length_le : calls.length ≤ order.length
  /-- Each call is for its node. -/
  asked : ∀ e ∈ order.zip calls, CallsFor (order.zip calls) e.1 e.2
  /-- If no call is refused, there is one for each node, and the last one has the result. -/
  returned : (∀ call ∈ calls, call.refusal? = none) → calls.length = order.length ∧
    ∃ call g, calls.getLast? = some call ∧ call.result? = some g ∧ result = .ok g
  /-- A call that is refused is the last one, and it is reported with the place of its
  node. -/
  refused : ∀ i call s, calls[i]? = some call → call.refusal? = some s →
    calls.length = i + 1 ∧ ∃ e, order[i]? = some e ∧ result = .error ⟨e.2, s⟩
  /-- Whatever was handed out is used once, but for the result and what a refusal leaves
  over. -/
  used : ∃ unused, (calls.flatMap Call.operands ++ unused).Perm (calls.filterMap Call.result?) ∧
    ∀ g, result = .ok g → unused = [g]

/-- A run that has made the last node, or has been refused, has a transcript. -/
theorem Progress.isTranscript {result : Except (CompileError K) G}
    (h : Progress (order ++ [(n, path)]) [(n, path)] calls (result.map ([·])))
    (hnodup : ((order ++ [(n, path)]).map Prod.snd).Nodup) :
    IsTranscript (order ++ [(n, path)]) calls result := by
  refine ⟨h.length_le, h.asked, ?returned, ?refused, ?used⟩
  case returned =>
    intro hok
    cases result with
    | error error =>
      obtain ⟨earlier, operation, _, rfl, -, -⟩ := h.refused error rfl
      have hnone := hok (.perform operation (.error error.source)) (by simp)
      cases hnone
    | ok g =>
      obtain ⟨hlength, -, hmade⟩ := h.made [g] rfl
      obtain ⟨⟨operation, hmem⟩, -⟩ := List.forall₂_cons.mp hmade
      rw [List.length_append, List.length_singleton] at hlength
      obtain ⟨earlier, last, rfl⟩ := (List.eq_nil_or_concat' calls).resolve_left
        (List.length_pos_iff.mp (by omega))
      refine ⟨by simpa using hlength, last, g, by simp, ?_, rfl⟩
      -- the call that made the last node is the last one, as that node is at no other place
      rw [List.zip_append (by simpa using hlength.symm), List.mem_append] at hmem
      rcases hmem with hmem | hmem
      · rw [List.map_append, List.nodup_append] at hnodup
        have hpath : path ∈ order.map Prod.snd := List.mem_map_of_mem (List.of_mem_zip hmem).1
        exact absurd rfl (hnodup.2.2 path hpath path (by simp))
      · obtain rfl : .perform operation (.ok g) = last := by simpa using hmem
        rfl
  case refused =>
    intro i call s hi hs
    cases result with
    | ok g =>
      obtain ⟨-, hok, -⟩ := h.made [g] rfl
      rw [hok call (List.mem_of_getElem? hi)] at hs
      cases hs
    | error error =>
      obtain ⟨earlier, operation, n', rfl, hok, hn'⟩ := h.refused error rfl
      rcases lt_or_ge i earlier.length with hlt | hge
      · rw [List.getElem?_append_left hlt] at hi
        rw [hok call (List.mem_of_getElem? hi)] at hs
        cases hs
      · have hlt := (List.getElem?_eq_some_iff.mp hi).1
        rw [List.length_append, List.length_singleton] at hlt
        obtain rfl : i = earlier.length := by omega
        obtain rfl : .perform operation (.error error.source) = call := by simpa using hi
        cases hs
        exact ⟨by simp, _, hn', rfl⟩
  case used =>
    obtain ⟨unused, hperm, hunused⟩ := h.used
    refine ⟨unused, hperm, ?_⟩
    intro g hg
    exact hunused [g] (by rw [hg]; rfl)

end Progress

/-! ### Recorded computations -/

section Recorded

variable {m : Type → Type} [Monad m] {K G ε α β : Type}

/-- What comes of a recorded computation is what comes of the other one. -/
def Mirrors (x : ExceptT ε (StateT (List (Call K G)) m) α) (y : ExceptT ε m α) : Prop :=
  ∀ log, Prod.fst <$> x.run.run log = y.run

/-- Every run of a recorded computation adds calls to the record, and `post` holds of these
and of what comes of it. -/
def Adds (x : ExceptT ε (StateT (List (Call K G)) m) α)
    (post : List (Call K G) → Except ε α → Prop) : Prop :=
  ∀ log, SatisfiesM (fun run => ∃ calls, run.2 = log ++ calls ∧ post calls run.1) (x.run.run log)

variable [LawfulMonad m] {x : ExceptT ε (StateT (List (Call K G)) m) α} {y : ExceptT ε m α}
  {f : α → ExceptT ε (StateT (List (Call K G)) m) β} {g : α → ExceptT ε m β}

theorem Mirrors.pure (a : α) :
    Mirrors (pure a : ExceptT ε (StateT (List (Call K G)) m) α) (pure a) := by
  intro log
  simp

theorem Mirrors.bind (hx : Mirrors x y) (hf : ∀ a, Mirrors (f a) (g a)) :
    Mirrors (x >>= f) (y >>= g) := by
  intro log
  rw [ExceptT.run_bind, ExceptT.run_bind, StateT.run_bind, ← hx log, map_bind, bind_map_left]
  congr 1
  funext run
  obtain ⟨out, log'⟩ := run
  cases out with
  | ok a => exact hf a log'
  | error e => simp

theorem Adds.pure (a : α) {post : List (Call K G) → Except ε α → Prop} (h : post [] (.ok a)) :
    Adds (pure a : ExceptT ε (StateT (List (Call K G)) m) α) post := by
  intro log
  exact .pure ⟨[], by simp, h⟩

theorem Adds.bind {pre : List (Call K G) → Except ε α → Prop}
    {post : List (Call K G) → Except ε β → Prop} (hx : Adds x pre)
    (hok : ∀ calls a, pre calls (.ok a) → Adds (f a) fun calls' out => post (calls ++ calls') out)
    (herror : ∀ calls e, pre calls (.error e) → post calls (.error e)) :
    Adds (x >>= f) post := by
  intro log
  rw [ExceptT.run_bind, StateT.run_bind]
  refine (hx log).bind fun run hrun => ?_
  obtain ⟨out, log'⟩ := run
  obtain ⟨calls, rfl, hpre⟩ := hrun
  cases out with
  | ok a =>
    refine (hok calls a hpre (log ++ calls)).imp fun ⟨calls', hlog, hpost⟩ => ?_
    exact ⟨calls ++ calls', by rw [hlog, List.append_assoc], hpost⟩
  | error e => exact .pure ⟨calls, rfl, herror calls e hpre⟩

variable (k : Kernel m K G) (path : Path) (operation : Operation K G)

theorem run_performAt_recorded (log : List (Call K G)) :
    (k.recorded.performAt path operation).run.run log = do
      let answer ← (k.perform operation).run
      return (answer.mapError (CompileError.mk path), log ++ [.perform operation answer]) := by
  simp [Kernel.performAt, Kernel.placed, Kernel.recorded]

theorem mirrors_performAt :
    Mirrors (k.recorded.performAt path operation) (k.performAt path operation) := by
  intro log
  rw [run_performAt_recorded]
  simp [Kernel.performAt, Kernel.placed]

theorem adds_performAt {post : List (Call K G) → Except (CompileError K) G → Prop}
    (h : ∀ answer : Except (KernelError K) G,
      post [.perform operation answer] (answer.mapError (CompileError.mk path))) :
    Adds (k.recorded.performAt path operation) post := by
  intro log
  rw [run_performAt_recorded]
  refine SatisfiesM.trivial.bind fun answer _ => ?_
  exact .pure ⟨_, rfl, h answer⟩

end Recorded

/-! ### The run for a recipe -/

namespace Kernel

variable {m : Type → Type} [Monad m] [LawfulMonad m] {K G : Type} [Scalar K] [Trig K]

mutual

/-- Keeping a record changes nothing for a node. -/
theorem mirrors_compileNode (k : Kernel m K G) (path : Path) :
    (n : Node K) → Mirrors (k.recorded.compileNode path n) (k.compileNode path n)
  | .shape s => by
    rw [compileNode, compileNode]
    exact mirrors_performAt k path _
  | .combine combination children => by
    rw [compileNode, compileNode]
    exact (mirrors_compileItems k (path.key "children") 0 children).bind fun operands =>
      mirrors_performAt k path _
  | .move motion child => by
    rw [compileNode, compileNode]
    exact (mirrors_compileNode k (path.key "child") child).bind fun operand =>
      mirrors_performAt k path _

theorem mirrors_compileItems (k : Kernel m K G) (path : Path) (i : ℕ) :
    (ns : List (Node K)) → Mirrors (k.recorded.compileItems path i ns) (k.compileItems path i ns)
  | [] => by
    rw [compileItems, compileItems]
    exact .pure []
  | n :: rest => by
    rw [compileItems, compileItems]
    exact (mirrors_compileNode k (path.index i) n).bind fun g =>
      (mirrors_compileItems k path (i + 1) rest).bind fun gs => .pure (g :: gs)

end

mutual

/-- The calls for a node are those for all that is below it, and then its own. -/
theorem adds_compileNode (k : Kernel m K G) (path : Path) :
    (n : Node K) → Adds (k.recorded.compileNode path n) fun calls out =>
      Progress (n.postorder path) [(n, path)] calls (out.map ([·]))
  | .shape s => by
    rw [compileNode]
    exact adds_performAt k path _ fun answer => Progress.nil.call (.shape s) answer
  | .combine combination children => by
    rw [compileNode]
    refine (adds_compileItems k (path.key "children") 0 children).bind ?_ ?_
    · intro calls operands h
      exact adds_performAt k path _ fun answer =>
        h.call (.combine combination children operands) answer
    · intro calls error h
      exact h.stop _ _
  | .move motion child => by
    rw [compileNode]
    refine (adds_compileNode k (path.key "child") child).bind ?_ ?_
    · intro calls operand h
      exact adds_performAt k path _ fun answer => h.call (.of_motion motion child operand) answer
    · intro calls error h
      exact h.stop _ _

theorem adds_compileItems (k : Kernel m K G) (path : Path) (i : ℕ) :
    (ns : List (Node K)) → Adds (k.recorded.compileItems path i ns) fun calls out =>
      Progress (Node.postorderOfItems path i ns) (Node.placedFrom path i ns) calls out
  | [] => by
    rw [compileItems]
    exact .pure [] Progress.nil
  | n :: rest => by
    rw [compileItems]
    refine (adds_compileNode k (path.index i) n).bind ?_ ?_
    -- a refusal by the first item leaves nothing for the others to do
    · intro calls g hfirst
      refine (adds_compileItems k path (i + 1) rest).bind ?_ ?_
      · intro calls' gs hrest
        exact .pure _ (by rw [List.append_nil]; exact hfirst.append hrest)
      · intro calls' error hrest
        exact hfirst.append hrest
    · intro calls error h
      exact h.stop _ _

end

/-- **A recipe is made from the bottom up.** Whatever the modeller does, a run has one call
for each node in the order `Node.postorder`, each with what was made of the children of its
node; it ends with the geometry that the last call hands out, or with the first refusal,
reported with the place of the node that the refused call was for. -/
theorem compileNode_isTranscript (k : Kernel m K G) (path : Path) (n : Node K) :
    (n.postorder path).length = n.count ∧ ((n.postorder path).map Prod.snd).Nodup ∧
      Prod.fst <$> (k.recorded.compileNode path n).run.run [] = (k.compileNode path n).run ∧
      SatisfiesM (fun run => IsTranscript (n.postorder path) run.2 run.1)
        ((k.recorded.compileNode path n).run.run []) := by
  have hnodup := Node.nodup_postorder path n
  refine ⟨Node.length_postorder path n, hnodup, mirrors_compileNode k path n [], ?_⟩
  refine (adds_compileNode k path n []).imp fun ⟨calls, hcalls, hprogress⟩ => ?_
  rw [hcalls, List.nil_append]
  rw [Node.postorder_eq] at hnodup hprogress ⊢
  exact hprogress.isTranscript hnodup

/-- A modeller that refuses its third call, which is that for the second of three children:
the third child and the root are never asked for. -/
theorem compileNode_isTranscript_rehearsal : ∃ (n : Node ℝ) (calls : List (Call ℝ ℕ)),
    n = .combine .intersect [.shape (.cuboid ⟨1, 1, 1⟩ none),
      .move (.scale ⟨2, 2, 2⟩) (.shape (.sphere 1 none none)),
      .shape (.cuboid ⟨3, 3, 3⟩ none)] ∧
    calls = [.perform (.make (.cuboid ⟨1, 1, 1⟩ none)) (.ok 0),
      .perform (.make (.sphere 1 none none)) (.ok 1),
      .perform (.move (.scale ⟨2, 2, 2⟩) 1) (.error .nonFinite)] ∧
    ((rehearsal (some 2) false).recorded.compileNode .root n).run.run [] 0
      = ((.error ⟨(Path.root.key "children").index 1, .nonFinite⟩, calls), 3) ∧
    IsTranscript (n.postorder .root) calls
      (.error ⟨(Path.root.key "children").index 1, .nonFinite⟩) := by
  refine ⟨_, _, rfl, rfl, rfl, ?_⟩
  obtain ⟨-, -, -, hrun⟩ := compileNode_isTranscript
    (rehearsal (some 2) false : Kernel (StateM ℕ) ℝ ℕ) .root
    (.combine .intersect [.shape (.cuboid ⟨1, 1, 1⟩ none),
      .move (.scale ⟨2, 2, 2⟩) (.shape (.sphere 1 none none)),
      .shape (.cuboid ⟨3, 3, 3⟩ none)])
  have htranscript := SatisfiesM_Id_eq.mp (SatisfiesM_StateT_eq.mp hrun 0)
  exact htranscript

end Kernel

end Solids
