-- Which nodes have a type after a check that goes on after errors: the expressions,
-- parameters and statements of the parts that passed. A part that failed leaves no type
-- behind, not even those of the nodes that were put on record before the error.
import LetPoly.Proofs.ProgramParts

namespace LetPoly

/-! ## The nodes of the parts -/

namespace Program

variable {p : Program}

theorem walk_eq (p : Program) :
    p.walk = ⟨⟨p.tag, []⟩, p.statements.length + p.result.toList.length⟩ ::
      Term.walkAll [] 0 p.parts := by
  rw [walk, parts, Term.walkAll_append_toList, Nat.zero_add]

/-- A node of a part is a node of the program. -/
theorem mem_walk {slot : Nat} {part : Term} (hpart : p.parts[slot]? = some part) {v : Visit}
    (hv : v ∈ part.walk [slot]) : v ∈ p.walk := by
  rw [walk_eq]
  exact List.mem_cons_of_mem _ (Term.mem_walkAll.2 ⟨slot, part, hpart, by rwa [Nat.zero_add]⟩)

/-- The nodes of a program stand at different positions. -/
theorem nodup_walk (p : Program) : (positions p.walk).Nodup := by
  rw [walk_eq]
  exact (Term.branches_walkAll [] p.parts rfl).node.nodup

theorem eq_of_position {v w : Visit} (hv : v ∈ p.walk) (hw : w ∈ p.walk)
    (h : v.site.position = w.site.position) : v = w :=
  List.inj_on_of_nodup_map p.nodup_walk hv hw h

/-- A node is a node of one part only. -/
theorem slot_eq {slot slot' : Nat} {part part' : Term} {v : Visit} (hv : v ∈ part.walk [slot])
    (hv' : v ∈ part'.walk [slot']) : slot = slot' := by
  have hat := (Term.rooted_walk [slot] part).within _ (List.mem_map_of_mem hv)
  have hat' := (Term.rooted_walk [slot'] part').within _ (List.mem_map_of_mem hv')
  exact slot_unique hat hat'

end Program

/-! ## The table of types -/

theorem mem_typedSites {visits : List Visit} {site : Site} :
    site ∈ typedSites visits ↔ site.kind.typed = true ∧ ∃ v ∈ visits, v.site = site := by
  simp [typedSites, and_comm]

theorem Checked.exists_typeAt?_iff {c : Checked} {position : Position} :
    (∃ t, c.typeAt? position = some t) ↔ ∃ entry ∈ c.types, entry.1.position = position := by
  unfold typeAt?
  constructor
  · rintro ⟨t, h⟩
    obtain ⟨entry, hfind, -⟩ := Option.map_eq_some_iff.1 h
    exact ⟨entry, List.mem_of_find?_eq_some hfind, by simpa using List.find?_some hfind⟩
  · rintro ⟨entry, hmem, rfl⟩
    rcases hfind : c.types.find? (·.1.position = entry.1.position) with _ | first
    · simpa using List.find?_eq_none.1 hfind entry hmem
    · exact ⟨first.2, by simp [hfind]⟩

namespace Program

variable {p : Program} {rules : Rules} {seed : Int} {prelude : Env} {c : Checked}

/-- The nodes in the table of types are those that get a type, of the parts that passed. -/
theorem mem_sites_iff (hr : rules.Proper) (h : p.checkBy rules true seed prelude = .ok c)
    {site : Site} :
    site ∈ c.types.map (·.1) ↔ ∃ (slot : Nat) (part : Term) (after : InferState),
      p.parts[slot]? = some part ∧ p.endingBy? rules seed prelude slot = some (none, after) ∧
        site ∈ typedSites (part.walk [slot]) := by
  obtain ⟨first, stage, last, t, hfirst, hlast, rfl⟩ := reports_of_checkBy h
  rw [Checked.types_ofReports, List.map_flatMap, List.mem_flatMap]
  constructor
  · rintro ⟨report, hreport, hsite⟩
    obtain ⟨slot, hslot⟩ := List.mem_iff_getElem?.1 hreport
    obtain ⟨part, ⟨error?, after⟩, hpart, hend, htells⟩ := tells_of_report hr hfirst hlast hslot
    cases error? with
    | none => exact ⟨slot, part, after, hpart, hend, (htells.passed rfl).mem_iff.1 hsite⟩
    | some error =>
      rw [htells.failed nofun] at hsite
      cases hsite
  · rintro ⟨slot, part, after, hpart, hend, hsite⟩
    obtain ⟨report, ending, hslot, hend', htells⟩ := tells_at hr hfirst hlast hpart
    obtain rfl : (none, after) = ending := Option.some.inj (hend.symm.trans hend')
    exact ⟨report, List.mem_of_getElem? hslot, (htells.passed rfl).mem_iff.2 hsite⟩

/-- An entry of the table is about a node of a part that passed. -/
theorem exists_visit (hr : rules.Proper) (h : p.checkBy rules true seed prelude = .ok c)
    {entry : Site × Ty} (he : entry ∈ c.types) :
    ∃ (slot : Nat) (part : Term) (after : InferState) (v : Visit),
      p.parts[slot]? = some part ∧ p.endingBy? rules seed prelude slot = some (none, after) ∧
        v ∈ part.walk [slot] ∧ v.site = entry.1 ∧ v.site.kind.typed = true := by
  obtain ⟨slot, part, after, hpart, hend, hsite⟩ :=
    (mem_sites_iff hr h).1 (List.mem_map_of_mem he)
  obtain ⟨htyped, v, hv, hsite⟩ := mem_typedSites.1 hsite
  exact ⟨slot, part, after, v, hpart, hend, hv, hsite, hsite ▸ htyped⟩

/-- A node has a type just if it gets one and is a node of a part that passed. -/
theorem exists_typeAt?_iff (hr : rules.Proper) (h : p.checkBy rules true seed prelude = .ok c)
    {v : Visit} (hv : v ∈ p.walk) :
    (∃ t, c.typeAt? v.site.position = some t) ↔
      v.site.kind.typed = true ∧ ∃ (slot : Nat) (part : Term) (after : InferState),
        p.parts[slot]? = some part ∧ v ∈ part.walk [slot] ∧
          p.endingBy? rules seed prelude slot = some (none, after) := by
  rw [Checked.exists_typeAt?_iff]
  constructor
  · rintro ⟨entry, he, hposition⟩
    obtain ⟨slot, part, after, w, hpart, hend, hw, hsite, htyped⟩ := exists_visit hr h he
    -- the entry is about the node itself, since no other stands at its position
    obtain rfl : w = v := eq_of_position (mem_walk hpart hw) hv (by rw [hsite, hposition])
    exact ⟨htyped, slot, part, after, hpart, hw, hend⟩
  · rintro ⟨htyped, slot, part, after, hpart, hv, hend⟩
    have hsite := (mem_sites_iff hr h).2
      ⟨slot, part, after, hpart, hend, mem_typedSites.2 ⟨htyped, v, hv, rfl⟩⟩
    obtain ⟨entry, he, heq⟩ := List.mem_map.1 hsite
    exact ⟨entry, he, by rw [heq]⟩

/-- No node of a part that failed has a type. -/
theorem typeAt?_of_failed (hr : rules.Proper) (h : p.checkBy rules true seed prelude = .ok c)
    {slot : Nat} {part : Term} {error : TypeError} {after : InferState}
    (hpart : p.parts[slot]? = some part)
    (hend : p.endingBy? rules seed prelude slot = some (some error, after)) {v : Visit}
    (hv : v ∈ part.walk [slot]) : c.typeAt? v.site.position = none := by
  by_contra hsome
  obtain ⟨t, ht⟩ := Option.ne_none_iff_exists'.1 hsome
  obtain ⟨-, slot', part', after', -, hv', hend'⟩ :=
    (exists_typeAt?_iff hr h (mem_walk hpart hv)).1 ⟨t, ht⟩
  obtain rfl := slot_eq hv hv'
  cases hend.symm.trans hend'

end Program

/-- In a check that goes on after errors, of a program that is read from a text, a node has a type
in the end if and only if it is an expression, a parameter or a statement of a part that passed. No
node of a part that failed has one. The check comes to each part and, from a closed prelude, always
to an end. -/
theorem the_typed_nodes_are_those_of_the_parts_that_pass {source file : String} {p : Program}
    (hread : Program.read source file = .ok p) (options : CheckOptions)
    (hon : options.resilient = true) :
    (options.prelude.Closed → ∃ c, p.check options = .ok c) ∧
      ∀ c, p.check options = .ok c →
        (∀ slot < p.parts.length, ∃ ending, p.endAt? options slot = some ending) ∧
        (∀ v ∈ p.walk, (∃ t, c.typeAt? v.site.position = some t) ↔
          v.site.kind.typed = true ∧ ∃ (slot : Nat) (part : Term) (after : InferState),
            p.parts[slot]? = some part ∧ v ∈ part.walk [slot] ∧
              p.endAt? options slot = some (none, after)) ∧
        (∀ (slot : Nat) (part : Term) (error : TypeError) (after : InferState),
          p.parts[slot]? = some part → p.endAt? options slot = some (some error, after) →
            ∀ v ∈ part.walk [slot], c.typeAt? v.site.position = none) ∧
        ∀ entry ∈ c.types, ∃ v ∈ p.walk, v.site = entry.1 := by
  have hr := Rules.proper_standard options.extraTypes
  unfold Program.check
  rw [hon]
  refine ⟨fun hclosed => ?_, fun c hc => ⟨fun slot hslot => ?_, fun v hv => ?_, ?_, ?_⟩⟩
  · obtain ⟨first, stage, last, t, hfirst, hlast⟩ :=
      Program.exists_reports_of_closed (Program.inPlace_of_read hread) hr options.seed hclosed
    exact ⟨_, Program.checkBy_of_through hfirst hlast⟩
  · exact Program.exists_endingBy? hr hc hslot
  · exact Program.exists_typeAt?_iff hr hc hv
  · intro slot part error after hpart hend v hv
    exact Program.typeAt?_of_failed hr hc hpart hend hv
  · intro entry he
    obtain ⟨slot, part, after, v, hpart, -, hv, hsite, -⟩ := Program.exists_visit hr hc he
    exact ⟨v, Program.mem_walk hpart hv, hsite⟩

/-- The item has a type. The name in the first branch has none, though it was on record when the
check of the last expression failed, and neither has the program itself. -/
theorem the_typed_nodes_are_those_of_the_parts_that_pass_beside_a_slip :
    Program.read slipSource "" = .ok slipProgram ∧ slipOptions.prelude.Closed ∧
      (∃ error after, slipProgram.endAt? slipOptions 1 = some (some error, after) ∧
        [0, 1, 1] ∈ after.types.map (·.1.position)) ∧
      ∃ c, slipProgram.check slipOptions = .ok c ∧ (∃ t, c.typeAt? [0] = some t) ∧
        c.typeAt? [0, 1, 1] = none ∧ c.typeAt? [] = none := by
  obtain ⟨⟨error?, first⟩, hfirst, rfl⟩ := Option.map_eq_some_iff.1 endAt?_slipItem
  obtain ⟨⟨error?, after⟩, hlast, heq⟩ := Option.map_eq_some_iff.1 endAt?_slip
  obtain ⟨rfl, htypes⟩ := Prod.mk.inj heq
  obtain ⟨hexists, hall⟩ := the_typed_nodes_are_those_of_the_parts_that_pass read_slipSource
    slipOptions rfl
  obtain ⟨c, hc⟩ := hexists closed_slipOptions
  obtain ⟨-, hnode, hfailed, -⟩ := hall c hc
  refine ⟨read_slipSource, closed_slipOptions, ⟨_, after, hlast, ?_⟩, c, hc, ?_, ?_, ?_⟩
  · rw [htypes]
    decide
  · exact (hnode ⟨⟨⟨.letBinding, inLineOne 5⟩, [0]⟩, 1⟩ (by decide)).2
      ⟨rfl, 0, _, first, rfl, by decide, hfirst⟩
  · exact hfailed 1 _ _ after rfl hlast ⟨⟨⟨.name, inLineOne 26⟩, [0, 1, 1]⟩, 0⟩ (by decide)
  · by_contra hsome
    obtain ⟨t, ht⟩ := Option.ne_none_iff_exists'.1 hsome
    obtain ⟨htyped, -⟩ := (hnode ⟨⟨⟨.program, inLineOne 1⟩, []⟩, 2⟩ (by decide)).1 ⟨t, ht⟩
    cases htyped

end LetPoly
