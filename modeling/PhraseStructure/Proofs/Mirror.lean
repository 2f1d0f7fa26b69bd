import PhraseStructure.Proofs.Rewriting

/-!
# Mirrored grammars

A grammar is mirrored by turning all its right-hand sides round. Its derivations are then turned
round step by step, so they are as long as before and derive the strings read backwards.

* `derivesIn_mirror`: the derivations of the mirrored grammar.
* `generates_mirror`: the strings that it generates.
-/

namespace PhraseStructure

/-- The production with its right-hand side turned round. -/
def Production.mirror (p : Production) : Production := ⟨p.lhs, p.rhs.reverse⟩

@[simp] theorem Production.mirror_mirror (p : Production) : p.mirror.mirror = p := by
  simp [mirror]

namespace Grammar

/-- The grammar with all right-hand sides turned round. -/
def mirror (g : Grammar) : Grammar := { g with productions := g.productions.map Production.mirror }

variable {g : Grammar}

@[simp] theorem mirror_mirror (g : Grammar) : g.mirror.mirror = g := by
  simp [mirror, Function.comp_def]

theorem startForm_mirror (g : Grammar) : g.mirror.startForm = g.startForm.reverse := rfl

theorem mem_productions_mirror {p : Production} :
    p ∈ g.mirror.productions ↔ p.mirror ∈ g.productions := by
  constructor
  · intro h
    obtain ⟨q, hq, rfl⟩ := List.mem_map.1 h
    rwa [Production.mirror_mirror]
  · intro h
    exact List.mem_map.2 ⟨p.mirror, h, p.mirror_mirror⟩

theorem Rewrites.mirror {before after : Form} (h : g.Rewrites before after) :
    g.mirror.Rewrites before.reverse after.reverse := by
  obtain ⟨p, hp, left, right, rfl, rfl⟩ := h
  have hp' : p.mirror ∈ g.mirror.productions := List.mem_map_of_mem hp
  refine ⟨p.mirror, hp', right.reverse, left.reverse, ?_, ?_⟩
  · simp [Production.mirror]
  · simp [Production.mirror]

theorem DerivesIn.mirror {n : Nat} {before after : Form} (h : g.DerivesIn n before after) :
    g.mirror.DerivesIn n before.reverse after.reverse := by
  induction h with
  | refl form => exact .refl _
  | step hrw _ ih => exact .step hrw.mirror ih

/-- **A mirrored grammar has the mirrored derivations,** and no others. -/
theorem derivesIn_mirror {n : Nat} {before after : Form} :
    g.mirror.DerivesIn n before.reverse after.reverse ↔ g.DerivesIn n before after := by
  constructor
  · intro h
    have hback := h.mirror
    rwa [mirror_mirror, List.reverse_reverse, List.reverse_reverse] at hback
  · exact DerivesIn.mirror

theorem derives_mirror {before after : Form} :
    g.mirror.Derives before.reverse after.reverse ↔ g.Derives before after :=
  exists_congr fun _ => derivesIn_mirror

/-- **A mirrored grammar generates the strings read backwards.** -/
theorem generates_mirror {w : List Char} : g.mirror.Generates w.reverse ↔ g.Generates w := by
  unfold Generates
  rw [List.map_reverse, startForm_mirror, derives_mirror]

end Grammar

end PhraseStructure
