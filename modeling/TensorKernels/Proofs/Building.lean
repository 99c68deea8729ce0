import TensorKernels.Proofs.Lowering
import TensorKernels.Term.Build

/-!
# Terms made with a supply of call sites

`Build.apply` puts every application at a site that was not used before. Whatever is made this way from
leaves and from terms that were made before is a built term (`Build.Known.built`): operators have their
arguments, and a call site stands for one application.
-/

set_option autoImplicit false

namespace TensorKernels

namespace Build

/-- The terms that were made so far, where `next` is the first site that was not used. -/
structure Known (next : Nat) (known : List Term) : Prop where
  argCount : ∀ site op args, Term.apply site op args ∈ Term.allSubterms known →
    args.length = op.argCount
  shared : ∀ site op args op' args', Term.apply site op args ∈ Term.allSubterms known →
    Term.apply site op' args' ∈ Term.allSubterms known → op = op' ∧ args = args'
  used : ∀ site op args, Term.apply site op args ∈ Term.allSubterms known → site < next

variable {next : Nat} {known : List Term}

/-- A leaf needs no site. -/
theorem Known.leaf (h : Known next known) {t : Term} (ht : t.site? = none) : Known next (t :: known) := by
  have hmem : ∀ site op args, Term.apply site op args ∈ Term.allSubterms (t :: known) →
      Term.apply site op args ∈ Term.allSubterms known := by
    intro site op args hu
    rw [Term.allSubterms, List.mem_append] at hu
    rcases hu with hu | hu
    · cases t <;> simp [Term.subterms, Term.site?] at hu ht
    · exact hu
  exact ⟨fun site op args hu => h.argCount site op args (hmem site op args hu),
    fun site op args op' args' hu hu' =>
      h.shared site op args op' args' (hmem site op args hu) (hmem site op' args' hu'),
    fun site op args hu => h.used site op args (hmem site op args hu)⟩

/-- Before any call, the known terms are leaves. -/
theorem known_leaves (leaves : List Term) (h : ∀ t ∈ leaves, t.site? = none) :
    Known 0 leaves := by
  induction leaves with
  | nil => constructor <;> simp [Term.allSubterms]
  | cons t leaves ih =>
    exact (ih fun u hu => h u (List.mem_cons_of_mem t hu)).leaf (h t List.mem_cons_self)

/-- What `Build.apply` makes from known terms is known. -/
theorem Known.apply (h : Known next known) (op : Op) (args : List Term)
    (hargs : ∀ t ∈ args, t ∈ Term.allSubterms known) (hcount : args.length = op.argCount) :
    Known (next + 1) (.apply next op args :: known) := by
  have hold : ∀ u ∈ Term.allSubterms args, u ∈ Term.allSubterms known := by
    intro u hu
    obtain ⟨t, ht, hut⟩ := Term.mem_allSubterms.1 hu
    exact Term.allSubterms_trans known (hargs t ht) hut
  have hmem : ∀ u, u ∈ Term.allSubterms (.apply next op args :: known) →
      u = .apply next op args ∨ u ∈ Term.allSubterms known := by
    intro u hu
    rw [Term.allSubterms, Term.subterms, List.mem_append, List.mem_append, List.mem_singleton] at hu
    rcases hu with (hu | hu) | hu
    · exact .inr (hold u hu)
    · exact .inl hu
    · exact .inr hu
  refine ⟨?_, ?_, ?_⟩
  · intro site op' args' hu
    rcases hmem _ hu with hu | hu
    · cases hu
      exact hcount
    · exact h.argCount site op' args' hu
  · intro site op₁ args₁ op₂ args₂ h₁ h₂
    rcases hmem _ h₁ with h₁ | h₁ <;> rcases hmem _ h₂ with h₂ | h₂
    · cases h₁
      cases h₂
      exact ⟨rfl, rfl⟩
    · cases h₁
      exact absurd (h.used _ _ _ h₂) (Nat.lt_irrefl next)
    · cases h₂
      exact absurd (h.used _ _ _ h₁) (Nat.lt_irrefl next)
    · exact h.shared site op₁ args₁ op₂ args₂ h₁ h₂
  · intro site op' args' hu
    rcases hmem _ hu with hu | hu
    · cases hu
      omega
    · have := h.used site op' args' hu
      omega

/-- Terms among those that were made. -/
theorem Known.restrict (h : Known next known) {ts : List Term} (hts : ∀ t ∈ ts, t ∈ Term.allSubterms known) :
    Known next ts := by
  have hsub : ∀ u ∈ Term.allSubterms ts, u ∈ Term.allSubterms known := by
    intro u hu
    obtain ⟨t, ht, hut⟩ := Term.mem_allSubterms.1 hu
    exact Term.allSubterms_trans known (hts t ht) hut
  exact ⟨fun site op args hu => h.argCount site op args (hsub _ hu),
    fun site op args op' args' hu hu' => h.shared site op args op' args' (hsub _ hu) (hsub _ hu'),
    fun site op args hu => h.used site op args (hsub _ hu)⟩

/-- The parts of what is known. -/
theorem Known.universe (h : Known next known) : Term.Universe (· ∈ Term.allSubterms known) where
  args site op args hmem u hu := by
    refine Term.allSubterms_trans known hmem ?_
    rw [Term.subterms, List.mem_append]
    exact .inl hu
  argCount := h.argCount
  shared := h.shared

/-- What is known is built. -/
theorem Known.built (h : Known next known) {t : Term} (ht : t ∈ Term.allSubterms known) : t.Built := by
  have hsub : ∀ u ∈ t.subterms, u ∈ Term.allSubterms known :=
    fun u hu => Term.allSubterms_trans known ht hu
  exact ⟨fun site op args hu => h.argCount site op args (hsub _ hu),
    fun site op args op' args' hu hu' => h.shared site op args op' args' (hsub _ hu) (hsub _ hu')⟩

end Build

/-- A part of a built term is built. -/
theorem Term.Built.of_subterm {t u : Term} (h : t.Built) (hu : u ∈ t.subterms) : u.Built :=
  ⟨fun site op args hv => h.argCount site op args (Term.subterms_trans t hu hv),
    fun site op args op' args' hv hv' => h.shared site op args op' args'
      (Term.subterms_trans t hu hv) (Term.subterms_trans t hu hv')⟩

/-! ## A layer

The layer `dropout (relu (x * w + b)) * relu (x * w + b)`, in which one application is used twice. -/

/-- The tensors of the layer. -/
def layerSignature : Signature where
  decls := [⟨"x", [2, 3], .input⟩, ⟨"w", [3, 2], .parameter⟩, ⟨"b", [2], .parameter⟩]
  valid := by decide
  nodup := by decide
  countable := by decide

/-- The affine part of the layer. -/
def layerSum : Term :=
  .apply 1 (.binary .add) [.apply 0 .matmul [.tensor 0, .tensor 1], .tensor 2]

/-- The layer. -/
def layerTerm : Term :=
  .apply 4 (.binary .mul)
    [.apply 3 (.dropout 0.5) [.apply 2 (.unary .relu) [layerSum]], .apply 2 (.unary .relu) [layerSum]]

/-- The shape of the layer. -/
theorem layerTerm_infer : layerTerm.infer layerSignature = .ok [2, 2] := rfl

/-- The dropout of the layer. -/
theorem layerTerm_dropoutSites : layerTerm.dropoutSites = [3] := rfl

/-- The layer is made step by step, with five call sites. -/
theorem layerTerm_known : Build.Known 5 [layerTerm] := by
  have h := Build.known_leaves [.tensor 0, .tensor 1, .tensor 2] (by simp [Term.site?])
  have h := h.apply .matmul [.tensor 0, .tensor 1] (by simp [Term.allSubterms, Term.subterms]) rfl
  have h := h.apply (.binary .add) [.apply 0 .matmul [.tensor 0, .tensor 1], .tensor 2]
    (by simp [Term.allSubterms, Term.subterms]) rfl
  have h := h.apply (.unary .relu) [layerSum]
    (by simp [Term.allSubterms, Term.subterms, layerSum]) rfl
  have h := h.apply (.dropout 0.5) [.apply 2 (.unary .relu) [layerSum]]
    (by simp [Term.allSubterms, Term.subterms]) rfl
  have h := h.apply (.binary .mul)
    [.apply 3 (.dropout 0.5) [.apply 2 (.unary .relu) [layerSum]], .apply 2 (.unary .relu) [layerSum]]
    (by simp [Term.allSubterms, Term.subterms]) rfl
  refine h.restrict fun t ht => ?_
  rw [List.mem_singleton.1 ht]
  exact Term.mem_allSubterms_of_mem List.mem_cons_self

/-- The layer is a built term. -/
theorem layerTerm_built : layerTerm.Built :=
  layerTerm_known.built (Term.mem_allSubterms_of_mem List.mem_cons_self)

/-- Its subterms have few elements. -/
theorem layerTerm_fits : layerTerm.Fits layerSignature := by decide

end TensorKernels
