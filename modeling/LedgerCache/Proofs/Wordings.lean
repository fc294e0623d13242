import LedgerCache.Proofs.Texts
import LedgerCache.Wording

namespace LedgerCache

namespace Contains

variable {text part : String}

theorem self (text : String) : Contains text text := List.infix_refl _

theorem append (h : Contains text part) (behind : String) : Contains (text ++ behind) part := by
  rw [Contains, String.toList_append]
  exact h.trans (List.infix_append' [] _ _)

theorem prepend (h : Contains text part) (front : String) : Contains (front ++ text) part := by
  rw [Contains, String.toList_append]
  exact h.trans (List.suffix_append _ _).isInfix

theorem join {texts : List String} (h : Contains text part) (hmem : text ∈ texts) :
    Contains (String.join texts) part := by
  rw [Contains, String.toList_join, List.flatMap_def]
  exact h.trans (List.infix_of_mem_flatten (List.mem_map_of_mem hmem))

theorem intercalate {texts : List String} (hmem : text ∈ texts) (between : String) :
    Contains (between.intercalate texts) text := by
  induction texts with
  | nil => cases hmem
  | cons first rest ih =>
    rcases List.mem_cons.1 hmem with rfl | hrest
    · cases rest with
      | nil => exact String.intercalate_singleton ▸ .self _
      | cons => exact String.intercalate_cons_cons ▸ ((self _).append _).append _
    · rw [String.intercalate_cons_of_ne_nil (List.ne_nil_of_mem hrest)]
      exact (ih hrest).prepend _

end Contains

theorem oneLine_append {s t : String} : OneLine (s ++ t) ↔ OneLine s ∧ OneLine t := by
  rw [OneLine, String.toList_append, List.mem_append, not_or]
  rfl

theorem oneLine_number (n : Nat) : OneLine (toString n) := fun h =>
  absurd (Text.inNumber_of_mem (n := n) h) (by decide)

namespace Wording

theorem contains_causeLines {causes : List String} {cause : String} (h : cause ∈ causes) :
    ∃ line ∈ causeLines causes, Contains line cause := by
  unfold causeLines
  split
  case h_1 only =>
    rw [List.mem_singleton] at h
    exact ⟨_, List.mem_singleton_self _, h ▸ (Contains.self _).prepend _⟩
  case h_2 =>
    obtain ⟨i, hi, rfl⟩ := List.getElem_of_mem h
    refine ⟨_, List.mem_mapIdx.2 ⟨i, hi, rfl⟩, (Contains.self _).prepend _⟩

theorem faithful_plain : plain.Faithful where
  failure := by
    intro chain _ message hmem
    match chain with
    | [context] => exact List.mem_singleton.1 hmem ▸ .self _
    | context :: cause :: causes =>
      rcases List.mem_cons.1 hmem with rfl | hcause
      · exact ((Contains.self _).append _).append _
      · obtain ⟨line, hline, hcontains⟩ := contains_causeLines hcause
        exact (hcontains.join hline).prepend _
  figures := by
    intro figures _ x hx
    exact ((Contains.intercalate (List.mem_map_of_mem hx) ",").prepend _).append _

end Wording

end LedgerCache
