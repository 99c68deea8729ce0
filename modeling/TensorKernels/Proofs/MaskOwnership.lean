import TensorKernels.Proofs.Sessions

/-!
# Whose masks a session holds

A lowering gives every dropout site a mask, in the order of `Term.dropoutSites`, with the rate of the
site and as many elements as its argument has. A session that compiles a term holds these masks until
the next compilation, with one exception: an `output` that fails replaces them by the masks that its own
lowering made, while the plan stays. Where the masks are those of the plan, an inference runs with all
of them at one, and a training run with masks that were drawn for it.
-/

set_option autoImplicit false

namespace TensorKernels

variable {α : Type} (ops : Arithmetic α)

namespace Program

/-- The mask of a call site that is a dropout: the rate, and the number of elements of the argument. -/
def Describes (p : Program) (site : Nat) (k : MaskSite) : Prop :=
  ∃ arg found, Term.apply site (.dropout k.rate) [arg] ∈ p.root.subterms ∧
    arg.infer p.signature = .ok found ∧ k.size = found.size

/-- One mask per dropout site, each with the site's rate and number of elements. -/
def Owns (p : Program) (masks : Array (Mask α)) : Prop :=
  List.Forall₂ p.Describes p.root.dropoutSites (Session.sitesOf masks).toList

/-- A dropout site has one rate and one size. -/
theorem Describes.unique {p : Program} (hroot : p.root.Built) {site : Nat} {k k' : MaskSite}
    (h : p.Describes site k) (h' : p.Describes site k') : k = k' := by
  obtain ⟨arg, found, hmem, hfound, hsize⟩ := h
  obtain ⟨arg', found', hmem', hfound', hsize'⟩ := h'
  obtain ⟨hop, hargs⟩ := hroot.shared _ _ _ _ _ hmem hmem'
  cases hargs
  rw [hfound, Except.ok.injEq] at hfound'
  subst hfound'
  obtain ⟨rate, size⟩ := k
  obtain ⟨rate', size'⟩ := k'
  cases hop
  rw [show size = size' from hsize.trans hsize'.symm]

end Program

/-- A dropout site is a call of a dropout on one argument. -/
theorem Term.Built.dropout_of_site {root : Term} (h : root.Built) {site : Nat}
    (hsite : site ∈ root.dropoutSites) :
    ∃ rate arg, Term.apply site (.dropout rate) [arg] ∈ root.subterms := by
  unfold Term.dropoutSites at hsite
  rw [List.mem_eraseDups] at hsite
  obtain ⟨u, hu, hsite⟩ := List.mem_filterMap.1 hsite
  match u, hsite with
  | .apply site' (.dropout rate) args, hsite =>
    obtain rfl : site' = site := by simpa [Term.dropoutSite?] using hsite
    obtain ⟨arg, rfl⟩ := List.length_eq_one_iff.1 (h.argCount _ _ _ hu)
    exact ⟨rate, arg, hu⟩

/-- The masks of a compiled term are those of its dropout sites. -/
theorem CompiledAs.describes {p : Program} {plan : Plan} {id : Nat} {s : Lowering}
    (hroot : p.root.Built) (h : CompiledAs p.signature p.root p.shape plan id s) :
    List.Forall₂ p.Describes p.root.dropoutSites s.masks.toList := by
  have harena : Arena p.signature s.masks s.nodes := h.sound.arena
  obtain ⟨base, hbase, -⟩ := h.lowered.stands
  rw [List.forall₂_iff_get]
  refine ⟨by simp [h.lowered.inv.count], ?_⟩
  intro i hi hi'
  have hsite : p.root.dropoutSites[i]? = some (p.root.dropoutSites.get ⟨i, hi⟩) :=
    List.getElem?_eq_getElem hi
  generalize p.root.dropoutSites.get ⟨i, hi⟩ = site at hsite
  obtain ⟨rate, arg, hmem⟩ := hroot.dropout_of_site (List.mem_of_getElem? hsite)
  obtain ⟨x, hx⟩ := Term.LoweredTo.of_subterm _ _ hbase hmem
  rw [Term.LoweredTo] at hx
  obtain ⟨n, ids, hn, hk, hargs, m, nm, i', hfst, hnm, hkm, hi''⟩ := hx
  -- the index of the mask is the position of the site, which is listed once
  obtain rfl : i' = i := by
    have hnodup := h.lowered.inv.nodup
    have hlt := (List.getElem?_eq_some_iff.1 hi'').1
    exact (List.getElem?_inj hlt hnodup).1 (hi''.trans hsite.symm)
  obtain ⟨-, o, a, m', b, i'', hops, hkm', -, hmask⟩ := (harena.opNode hn hk).mask rate rfl
  rw [Term.AllLoweredTo] at hargs
  obtain ⟨o', rest, rfl, harg, hrest⟩ := hargs
  rw [Term.AllLoweredTo] at hrest
  subst hrest
  rw [hops] at hfst
  simp only [List.map_cons, List.map_nil, List.cons_append, List.nil_append, List.cons.injEq,
    and_true] at hfst
  obtain ⟨rfl, rfl⟩ := hfst
  rw [nodeAt_of_getElem? hnm, hkm] at hkm'
  cases hkm'
  have hget : s.masks.toList.get ⟨i', hi'⟩ = ⟨rate, (nodeAt s.nodes o).size⟩ := by
    have := (Array.getElem?_eq_some_iff.1 hmask).2
    simpa using this
  rw [hget]
  exact ⟨arg, _, hmem, harg.infer_eq harena, rfl⟩

/-- Masks are those of a compiled program exactly if their rates and lengths are those that its lowering
met. -/
theorem Program.owns_iff {p : Program} {plan : Plan} (hroot : p.root.Built)
    (hplan : (compile p.signature p.root p.shape).plan = .ok plan) (masks : Array (Mask α)) :
    p.Owns masks ↔ Session.sitesOf masks = p.root.maskSites p.signature := by
  obtain ⟨id, s, hmasks, hcompiled⟩ := compiledAs_of_ok hroot hplan
  have hdescribes := hcompiled.describes hroot
  rw [← hmasks, compile_masks] at hdescribes
  constructor
  · intro howns
    have hunique : Relator.RightUnique p.Describes := fun _ _ _ h h' => h.unique hroot h'
    exact Array.toList_inj.1 (hunique.forall₂ howns hdescribes)
  · intro heq
    unfold Owns
    rw [heq]
    exact hdescribes

/-! ## What a run multiplies with -/

namespace Program

/-- The assignment gives each dropout site its mask. -/
def Uses (p : Program) (env : Assignment α) (masks : List (Mask α)) : Prop :=
  ∀ (i : Nat) site k, p.root.dropoutSites[i]? = some site → masks[i]? = some k → env.mask site = k.value

/-- The assignment keeps everything at every dropout site. -/
def KeepsAll (p : Program) (env : Assignment α) : Prop :=
  ∀ site rate arg found, Term.apply site (.dropout rate) [arg] ∈ p.root.subterms →
    arg.infer p.signature = .ok found → env.mask site = Array.replicate found.size ops.one

end Program

/-- A dropout site is listed once. -/
theorem CompiledAs.idxOf_site {signature : Signature} {root : Term} {shape : Shape} {plan : Plan}
    {id : Nat} {s : Lowering} (h : CompiledAs signature root shape plan id s) {i site : Nat}
    (hsite : root.dropoutSites[i]? = some site) : root.dropoutSites.idxOf site = i := by
  obtain ⟨hi, rfl⟩ := List.getElem?_eq_some_iff.1 hsite
  exact h.lowered.inv.nodup.idxOf_getElem i hi

namespace Session

variable {ops} {h : History} {s : Session α} {c : Compiled α} {p : Program}

/-- The values of the tensors of a session, and of the masks that were made for a run of a program. -/
def runAssignment (s : Session α) (p : Program) (next : List (Mask α)) : Assignment α where
  tensor t := ((s.tensors[t]?).map TensorState.value).getD #[]
  mask site := ((next[p.root.dropoutSites.idxOf site]?).map Mask.value).getD #[]

/-- The machine that is run has the values of the tensors and the masks that were made for the run. -/
theorem Loaded.carries (hloaded : s.Loaded ops p c) (hcoherent : s.Coherent ops) {next : List (Mask α)}
    (howns : p.Owns next.toArray) : ∃ env, (s.loaded next c.machine).Carries p.signature p.root env ∧
      p.Uses env next := by
  have hlength : next.length = p.root.dropoutSites.length := by
    have := howns.length_eq
    simpa [sitesOf] using this.symm
  obtain ⟨id, lowered, -, hcompiled⟩ := compiledAs_of_ok hloaded.built hloaded.plan
  have huses : p.Uses (s.runAssignment p next) next := by
    intro i site k hsite hk
    show ((next[p.root.dropoutSites.idxOf site]?).map Mask.value).getD #[] = k.value
    rw [hcompiled.idxOf_site hsite, hk]
    rfl
  refine ⟨s.runAssignment p next, ⟨?_, ?_⟩, huses⟩
  · intro t d hd
    obtain ⟨st, hst, -⟩ := hcoherent.exists_tensor (hloaded.get?_eq hd)
    show _ = some (((s.tensors[t]?).map TensorState.value).getD #[])
    rw [hst]
    exact hloaded.tensors_eq next hst
  · intro i site hsite
    have hi := (List.getElem?_eq_some_iff.1 hsite).1
    have hk : next[i]? = some next[i] := List.getElem?_eq_getElem (hlength ▸ hi)
    rw [huses i site _ hsite hk]
    exact loaded_mask hk s c.machine

/-- A run gives the value of the compiled root, with what the machine holds. -/
theorem Ran.output_eq {training : Bool} {next : List (Mask α)} {g : Generator} {r : Readback α}
    {m : Machine α} (hran : s.Ran ops training c next g r m) (hloaded : s.Loaded ops p c)
    (hcoherent : s.Coherent ops) (hfits : p.root.Fits p.signature) {env : Assignment α}
    (hcarries : (s.loaded next c.machine).Carries p.signature p.root env) :
    ∃ value, p.root.eval ops p.signature env = .ok value ∧
      r.output.take p.shape.size = value.data := by
  obtain ⟨id, lowered, -, hcompiled⟩ := compiledAs_of_ok hloaded.built hloaded.plan
  have hreached := reached_loaded ops hloaded.reached s next
  rw [← hcompiled.lowered.inv.count] at hreached
  obtain ⟨r', m', hrun, houtput⟩ := hcompiled.run_output ops hfits hreached training
  rw [hran.run] at hrun
  cases hrun
  have hsuits : ∀ t d, p.signature.get? t = some d → (env.tensor t).size = d.size := by
    intro t d hd
    obtain ⟨st, hst, hsuits⟩ := hcoherent.exists_tensor (hloaded.get?_eq hd)
    have hheld := hloaded.tensors_eq next hst
    rw [hcarries.tensor t d hd, Option.some.injEq] at hheld
    rw [hheld]
    exact hsuits.value
  obtain ⟨value, hvalue, hdata, -⟩ := hcompiled.eval_root ops hsuits
    (Layout.leavesOf (s.loaded next c.machine).tensors (s.loaded next c.machine).masks)
    (fun t d hd => by simp [Layout.leavesOf, hcarries.tensor t d hd])
    (fun i site hsite => by simp [Layout.leavesOf, hcarries.mask i site hsite])
  refine ⟨value, hvalue, ?_⟩
  have hcount : r.output.size = p.shape.size := by
    rw [houtput, size_valueAt_of_isComputed ops _ hcompiled.lowered.computed]
    exact hcompiled.lowered.size_eq
  have htake : r.output.take r.output.size = r.output := by simp
  rw [← hcount, htake, houtput, hdata]

/-- Disabled masks keep everything. -/
theorem keepsAll_of_disabled (hroot : p.root.Built) {masks : List (Mask α)}
    (howns : p.Owns masks.toArray) {env : Assignment α}
    (huses : p.Uses env (masks.map (Mask.disable ops))) : p.KeepsAll ops env := by
  intro site rate arg found hmem hfound
  have hsite : site ∈ p.root.dropoutSites := by
    unfold Term.dropoutSites
    rw [List.mem_eraseDups, List.mem_filterMap]
    exact ⟨_, hmem, rfl⟩
  obtain ⟨i, hi, rfl⟩ := List.mem_iff_getElem.1 hsite
  have hlength : p.root.dropoutSites.length = masks.length := by
    simpa [sitesOf] using howns.length_eq
  have hi' : i < masks.length := hlength ▸ hi
  have hdescribes : p.Describes p.root.dropoutSites[i] ⟨masks[i].rate, masks[i].value.size⟩ := by
    have := howns.get hi (by simpa [sitesOf] using hi')
    simpa [sitesOf] using this
  have hsize : masks[i].value.size = found.size :=
    congrArg MaskSite.size (hdescribes.unique hroot ⟨arg, found, hmem, hfound, rfl⟩ :
      (⟨masks[i].rate, masks[i].value.size⟩ : MaskSite) = ⟨rate, found.size⟩)
  rw [huses i _ (masks[i].disable ops) (List.getElem?_eq_getElem hi)
    (by rw [List.getElem?_map, List.getElem?_eq_getElem hi']; rfl)]
  show Array.replicate masks[i].value.size ops.one = _
  rw [hsize]

end Session

/-- After any commands, failing or not, what is compiled has as its masks those of its dropout sites
exactly if no `output` failed since, or the last one that failed met the same sites. Then an inference
runs the session's machine with masks that keep everything, and a training run runs it with masks of the
compiled rates and lengths that are drawn for it. Where the term fits, the outputs are its values with
these masks. -/
theorem masks_of_compiled (config : Config) (environment : Environment) (normal : NormalSampler)
    (entropy : UInt64) (log : Log)
    {commands : List (Command α)} (hbuilt : ∀ c ∈ commands, c.Built) {s : Session α} {h : History}
    (hfollow : Session.follow ops commands
      { Session.start config environment normal entropy with log := log } .start = (s, h))
    {c : Compiled α} (hc : s.compiled = some c) :
    ∃ p, h.program = some p ∧ (compile p.signature p.root p.shape).plan = .ok c.machine.plan ∧
      (p.Owns s.masks ↔ ∀ sites, h.refused = some sites → sites = p.root.maskSites p.signature) ∧
      (p.Owns s.masks →
        (∃ next env r s', next = s.masks.toList.map (Mask.disable ops) ∧ p.KeepsAll ops env ∧
          (s.loaded next c.machine).Carries p.signature p.root env ∧ s.Executes ops false c next r s' ∧
          Session.infer ops s = .ok (r.output.take p.shape.size) s' ∧
          (p.root.Fits p.signature → ∃ value, p.root.eval ops p.signature env = .ok value ∧
            r.output.take p.shape.size = value.data)) ∧
        ∃ next g env r t s', s.masks.toList.mapM (Mask.refresh ops) s.generator = .ok next g ∧
          p.Owns next.toArray ∧ p.Uses env next ∧
          (s.loaded next c.machine).Carries p.signature p.root env ∧ s.Executes ops true c next r s' ∧
          s'.generator = g ∧ Session.run ops s = .ok t s' ∧ t.output = r.output.take p.shape.size ∧
          (p.root.Fits p.signature → ∃ value, p.root.eval ops p.signature env = .ok value ∧
            t.output = value.data)) := by
  have hinv := (Session.Inv.start ops config environment normal entropy log).follow hbuilt
  rw [hfollow] at hinv
  obtain ⟨p, hp, hloaded⟩ := hinv.loaded c hc
  refine ⟨p, hp, hloaded.plan, ?_, ?_⟩
  · rw [Program.owns_iff hloaded.built hloaded.plan, hinv.masks p hp]
    cases h.refused with
    | none => simp
    | some sites => simp
  · intro howns
    have hnext : ∀ {training next g r m}, s.Ran ops training c next g r m → p.Owns next.toArray := by
      intro training next g r m hran
      unfold Program.Owns
      rw [← hran.sites_eq]
      exact howns
    refine ⟨?_, ?_⟩
    · -- for an inference the next masks are the disabled ones
      obtain ⟨next, g, r, m, hran, hinfer, -⟩ := hinv.infer hc
      obtain ⟨env, hcarries, huses⟩ := hloaded.carries hinv.coherent (hnext hran)
      obtain ⟨rfl, rfl⟩ := hran.disabled
      rw [hloaded.shape] at hinfer
      exact ⟨_, env, r, _, rfl,
        Session.keepsAll_of_disabled hloaded.built (by rwa [Array.toArray_toList]) huses, hcarries,
        hran.executes, hinfer, fun hfits => hran.output_eq hloaded hinv.coherent hfits hcarries⟩
    · obtain ⟨next, g, r, m, hran, hrun, -⟩ := hinv.run hc
      obtain ⟨env, hcarries, huses⟩ := hloaded.carries hinv.coherent (hnext hran)
      rw [hloaded.shape] at hrun
      exact ⟨next, g, env, r, _, _, hran.drawn, hnext hran, huses, hcarries, hran.executes_trained, rfl,
        hrun, rfl, fun hfits => hran.output_eq hloaded hinv.coherent hfits hcarries⟩

/-- A compiled dropout has its mask, and an inference runs the machine with a mask of ones and gives the
value of the dropout with that mask. -/
theorem masks_of_compiled_sample : Session.sampleProgram.root.dropoutSites = [0] ∧
    Session.sampleProgram.Owns Session.sample.1.masks ∧
    ∃ c next env r s' value, Session.sample.1.compiled = some c ∧ env.mask 0 = #[1.0, 1.0, 1.0, 1.0] ∧
      (Session.sample.1.loaded next c.machine).Carries Session.sampleProgram.signature
        Session.sampleTerm env ∧
      Session.sample.1.Executes .binary32 false c next r s' ∧
      Session.infer .binary32 Session.sample.1 = .ok (r.output.take 4) s' ∧
      Session.sampleTerm.eval .binary32 Session.sampleProgram.signature env = .ok value ∧
      r.output.take 4 = value.data := by
  obtain ⟨⟨c, hc⟩, -, hhistory⟩ := Session.sample_spec
  have hbuilt : ∀ c ∈ Session.sampleCommands, c.Built := fun c hc =>
    Session.sampleCommands_built c (List.mem_append_left _ hc)
  obtain ⟨p, hp, -, howns, hruns⟩ := masks_of_compiled .binary32 ⟨.cpu, none, 10⟩ .empty
    Session.steadySampler 0 [] hbuilt (rfl : _ = (Session.sample.1, Session.sample.2)) hc
  rw [hhistory] at hp howns
  cases hp
  have howned := howns.2 (by intro sites hsites; cases hsites)
  obtain ⟨⟨next, env, r, s', -, hkeeps, hcarries, hexecutes, hinfer, hvalue⟩, -⟩ := hruns howned
  obtain ⟨value, heval, houtput⟩ := hvalue (by decide)
  exact ⟨rfl, howned, c, next, env, r, s', value, hc,
    hkeeps 0 0.5 (.tensor 0) [4] (Term.mem_subterms_self _) rfl, hcarries, hexecutes, hinfer, heval,
    houtput⟩

/-- A failing `output` leaves a compiled dropout without its mask. -/
theorem masks_lost_by_failed_output : Session.stray.1.isCompiled ∧
    Session.stray.2.program = some Session.sampleProgram ∧
    Session.sampleProgram.root.dropoutSites = [0] ∧ Session.stray.1.masks = #[] ∧
    ¬ Session.sampleProgram.Owns Session.stray.1.masks := by
  obtain ⟨⟨c, hc⟩, hmasks, hhistory⟩ := Session.stray_spec
  refine ⟨?_, by rw [hhistory], rfl, hmasks, ?_⟩
  · unfold Session.isCompiled
    rw [hc]
    rfl
  · intro howns
    have hlength := howns.length_eq
    rw [hmasks, show Session.sampleProgram.root.dropoutSites = [0] from rfl] at hlength
    simp [Session.sitesOf] at hlength

end TensorKernels
