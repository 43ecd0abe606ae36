import Qld.Elf.ScriptLayout.Output
import Qld.Lib.Segments

/-!
# Laying out the items of an output section, step by step

* `Placed` — what stands where in an output section; `programOrder` — what a program places;
* `Laid` — the invariant of the loop: what was placed so far, in order, with the padding between;
* `Laid.gap`, `Laid.put` — `.` moves forward with padding, or behind what is placed;
* `laid_reservePool`, `laid_placeEntry`, `laid_item`, `laid_step`, `laid_steps` — every
  step keeps the invariant unless the address space wraps.
-/

namespace Qld.Elf.ScriptLayout

open Qld.Lib Qld.Script

/-! ### What is placed -/

/-- What takes room in an output section: a member, the bytes of a step, a thunk pool, or padding
with a pattern. -/
inductive Content where
  | member (i : ℕ)
  | data (step : ℕ)
  | pool
  | fill (pattern : ℕ)
  deriving DecidableEq, Repr

def Content.member? : Content → Option ℕ
  | member i => some i
  | _ => none

/-- What stands where in an output section. -/
structure Placed where
  what : Content
  offset : ℕ
  size : ℕ
  deriving DecidableEq, Repr

namespace Placed

def run (p : Placed) : ℕ × ℕ := (p.offset, p.size)

def isFill (p : Placed) : Bool :=
  match p.what with
  | .fill _ => true
  | _ => false

/-- What a program asks for. -/
def asked (p : Placed) : Option Content :=
  match p.what with
  | .member i => some (.member i)
  | .data step => some (.data step)
  | _ => none

/-- The padding, as it is recorded. -/
def fill? (p : Placed) : Option (ℕ × ℕ × ℕ) :=
  match p.what with
  | .fill pattern => some (p.offset, p.size, pattern)
  | _ => none

def data? (p : Placed) : Option (ℕ × ℕ) :=
  match p.what with
  | .data _ => some p.run
  | _ => none

def pool? (p : Placed) : Option (ℕ × ℕ) :=
  match p.what with
  | .pool => some p.run
  | _ => none

end Placed

/-- What a step of a program places. -/
def stepOrder (s : Step × ℕ) : List Content :=
  match s.1 with
  | .run start stop => (List.range' start (stop - start)).map .member
  | .item (.data ..) | .item (.asciz _) | .item .linkerVersion => [.data s.2]
  | .item _ => []

/-- What a program places, in order. -/
def programOrder (program : List Step) : List Content := program.zipIdx.flatMap stepOrder

/-! ### The invariant -/

/-- The address of an output section, its padding, and the places of its data. -/
def Engine.view (e : Engine) (index : ℕ) : Option (ℕ × List (ℕ × ℕ × ℕ) × List (ℕ × ℕ)) :=
  e.outs[index]?.map fun out => (out.vma, out.fills, out.data.map fun d => (d.1, d.2.length))

/-- A member stands where its entry says. -/
def Stands (sec : Section) (entries : List Entry) (p : Placed) : Prop :=
  ∀ i, p.what = .member i → ∃ entry, entries[i]? = some entry ∧
    p.offset = entry.offset ∧ p.size = entry.size ∧ sec.alignOf entry ∣ sec.vma + p.offset

/-- What the loop has done so far: `done` of the program, with `log` as the result. -/
structure Laid (link : Link) (sec : Section) (errors₀ : List (Span × Failure)) (filled : Bool)
    (entries₀ : List Entry) (done : List Content) (w : Walk) (log : List Placed) : Prop where
  current : w.engine.current = some sec.index
  finalPass : w.engine.finalPass = true
  view : w.engine.view sec.index =
    some (sec.vma, log.filterMap Placed.fill?, log.filterMap Placed.data?)
  pools : w.pools.map (fun p => (p.2.2, link.thunks.sizeOf sec.index p.1)) =
    log.filterMap Placed.pool?
  entries : ∃ entries, w.engine.entries[sec.index]? = some entries ∧
    entries.map (fun e => { e with offset := 0 }) = entries₀.map (fun e => { e with offset := 0 }) ∧
    ∀ p ∈ log, Stands sec entries p
  order : log.filterMap Placed.asked = done
  vma_le : sec.vma ≤ w.engine.dot
  dot_lt : w.engine.dot < 2 ^ 64
  ascend : Ascend 0 (w.engine.dot - sec.vma) (log.map Placed.run)
  errors : errors₀ <+: w.engine.errors
  /-- With a fill in force, no byte is left out. -/
  tiles : filled = true → w.engine.errors = errors₀ →
    w.fill.isSome ∧ Tiles 0 (w.engine.dot - sec.vma) (log.map Placed.run)

namespace Laid

variable {link : Link} {sec : Section} {errors₀ : List (Span × Failure)} {filled : Bool}
  {entries₀ : List Entry} {done : List Content} {w : Walk} {log : List Placed}

theorem offset_eq (h : Laid link sec errors₀ filled entries₀ done w log) :
    wrappingSub w.engine.dot sec.vma = w.engine.dot - sec.vma :=
  wrappingSub_of_le h.vma_le h.dot_lt

variable {e : Engine} {index vma : ℕ} {fills : List (ℕ × ℕ × ℕ)} {data : List (ℕ × ℕ)}

theorem view_modifyOut {fills' : List (ℕ × ℕ × ℕ)} {data' : List (ℕ × ℕ)}
    (hview : e.view index = some (vma, fills, data)) (f : OutState → OutState)
    (hf : ∀ out, out.vma = vma → out.fills = fills →
      out.data.map (fun d => (d.1, d.2.length)) = data →
      (f out).vma = vma ∧ (f out).fills = fills' ∧
        (f out).data.map (fun d => (d.1, d.2.length)) = data') :
    (e.modifyOut index f).view index = some (vma, fills', data') := by
  rw [Engine.view] at hview
  obtain ⟨out, hout, heq⟩ := Option.map_eq_some_iff.mp hview
  simp only [Prod.mk.injEq] at heq
  obtain ⟨hvma, hfills, hdata⟩ := hf out heq.1 heq.2.1 heq.2.2
  have hget : (e.outs.modify index f)[index]? = some (f out) := by
    rw [List.getElem?_modify_eq, hout]
    rfl
  rw [Engine.view, Engine.modifyOut, hget, Option.map_some, hvma, hfills, hdata]

theorem view_pad {from_ pattern : ℕ} (hview : e.view index = some (vma, fills, data))
    (hfinal : e.finalPass = true) (hdot : from_ < e.dot) :
    (e.pad index from_ (some pattern)).view index =
      some (vma, fills ++ [(wrappingSub from_ vma, wrappingSub e.dot from_, pattern)], data) := by
  have hvma : e.vmaOf index = vma := by
    rw [Engine.view] at hview
    obtain ⟨out, hout, heq⟩ := Option.map_eq_some_iff.mp hview
    rw [Engine.vmaOf, hout]
    exact congrArg Prod.fst heq
  have hcond : ¬(e.finalPass = false ∨ e.dot ≤ from_) := by
    rw [hfinal, not_or]
    exact ⟨Bool.noConfusion, Nat.not_le_of_lt hdot⟩
  rw [Engine.pad, if_neg hcond, hvma]
  refine view_modifyOut hview _ fun out hout hfills hdata => ⟨hout, ?_, hdata⟩
  show out.fills ++ _ = _
  rw [hfills]

theorem kept_pad (e : Engine) (index from_ : ℕ) (fill : Option ℕ) :
    (e.pad index from_ fill).entries = e.entries ∧ (e.pad index from_ fill).dot = e.dot ∧
      (e.pad index from_ fill).current = e.current ∧
      (e.pad index from_ fill).finalPass = e.finalPass ∧
      (e.pad index from_ fill).errors = e.errors := by
  unfold Engine.pad
  split
  · exact ⟨rfl, rfl, rfl, rfl, rfl⟩
  · dsimp only
    split
    · exact ⟨rfl, rfl, rfl, rfl, rfl⟩
    · exact ⟨rfl, rfl, rfl, rfl, rfl⟩

/-- **`.` moves forward, with padding.** -/
theorem gap (h : Laid link sec errors₀ filled entries₀ done w log) {t : Engine}
    (hentries : t.entries = w.engine.entries)
    (hview : t.view sec.index = w.engine.view sec.index) (hcurrent : t.current = w.engine.current)
    (hfinal : t.finalPass = w.engine.finalPass) (herrors : w.engine.errors <+: t.errors)
    (hle : w.engine.dot ≤ t.dot) (hlt : t.dot < 2 ^ 64) (wrapped : Bool) :
    ∃ log', Laid link sec errors₀ filled entries₀ done
      { w with engine := t.pad sec.index w.engine.dot w.fill, wrapped := wrapped } log' := by
  obtain ⟨kentries, kdot, kcurrent, kfinal, kerrors⟩ := kept_pad t sec.index w.engine.dot w.fill
  have hvma := h.vma_le
  have hcur : (t.pad sec.index w.engine.dot w.fill).current = some sec.index :=
    (kcurrent.trans hcurrent).trans h.current
  have hfin : (t.pad sec.index w.engine.dot w.fill).finalPass = true :=
    (kfinal.trans hfinal).trans h.finalPass
  have hpre : errors₀ <+: (t.pad sec.index w.engine.dot w.fill).errors := by
    rw [kerrors]
    exact h.errors.trans herrors
  -- Without new errors there were none before.
  have hsame : (t.pad sec.index w.engine.dot w.fill).errors = errors₀ →
      w.engine.errors = errors₀ := by
    rw [kerrors]
    intro heq
    exact (h.errors.eq_of_length_le (heq ▸ herrors).length_le).symm
  have hascend : Ascend 0 (t.dot - sec.vma) (log.map Placed.run) :=
    h.ascend.mono (Nat.le_refl 0) (by omega)
  obtain ⟨entries, hget, hmap, hstands⟩ := h.entries
  have hget' : (t.pad sec.index w.engine.dot w.fill).entries[sec.index]? = some entries := by
    rw [kentries, hentries, hget]
  by_cases hpad : ∃ pattern, w.fill = some pattern ∧ w.engine.dot < t.dot
  · obtain ⟨pattern, hfill, hdot⟩ := hpad
    obtain ⟨ev, hev⟩ : ∃ ev : Placed,
        ev = ⟨.fill pattern, w.engine.dot - sec.vma, t.dot - w.engine.dot⟩ := ⟨_, rfl⟩
    have hrun : t.dot - sec.vma = w.engine.dot - sec.vma + (t.dot - w.engine.dot) := by omega
    refine ⟨log ++ [ev], hcur, hfin, ?_, ?_, ⟨entries, hget', hmap, ?_⟩, ?_, ?_, ?_, ?_, hpre, ?_⟩
    · show (t.pad sec.index w.engine.dot w.fill).view sec.index = _
      rw [hfill, view_pad (hview.trans h.view) (hfinal.trans h.finalPass) hdot]
      rw [wrappingSub_of_le h.vma_le h.dot_lt, wrappingSub_of_le hle hlt]
      simp only [List.filterMap_append, List.filterMap_cons, List.filterMap_nil, hev, Placed.fill?,
        Placed.data?, List.append_nil]
    · rw [List.filterMap_append, hev]
      exact h.pools.trans (List.append_nil _).symm
    · intro p hp
      obtain hp | hp := List.mem_append.mp hp
      · exact hstands p hp
      · rw [List.mem_singleton.mp hp, hev]
        intro i hi
        cases hi
    · rw [List.filterMap_append, hev]
      exact (List.append_nil _).trans h.order
    · show sec.vma ≤ (t.pad sec.index w.engine.dot w.fill).dot
      rw [kdot]
      omega
    · show (t.pad sec.index w.engine.dot w.fill).dot < 2 ^ 64
      rw [kdot]
      exact hlt
    · show Ascend 0 ((t.pad sec.index w.engine.dot w.fill).dot - sec.vma) _
      rw [kdot, List.map_append, hrun, hev]
      exact h.ascend.concat _
    · intro hon heq
      have htiles := h.tiles hon (hsame heq)
      refine ⟨htiles.1, ?_⟩
      show Tiles 0 ((t.pad sec.index w.engine.dot w.fill).dot - sec.vma) _
      rw [kdot, List.map_append, hrun, hev]
      exact tiles_concat _ _ htiles.2
  · have hpadeq : t.pad sec.index w.engine.dot w.fill = t := by
      unfold Engine.pad
      split
      · rfl
      · next pattern hfill =>
        refine if_pos (.inr (Nat.le_of_not_lt fun hlt => hpad ⟨pattern, hfill, hlt⟩))
    refine ⟨log, hcur, hfin, ?_, h.pools, ⟨entries, hget', hmap, hstands⟩, h.order, ?_, ?_, ?_,
      hpre, ?_⟩
    · show (t.pad sec.index w.engine.dot w.fill).view sec.index = _
      rw [hpadeq, hview, h.view]
    · show sec.vma ≤ (t.pad sec.index w.engine.dot w.fill).dot
      rw [kdot]
      omega
    · show (t.pad sec.index w.engine.dot w.fill).dot < 2 ^ 64
      rw [kdot]
      exact hlt
    · show Ascend 0 ((t.pad sec.index w.engine.dot w.fill).dot - sec.vma) _
      rw [kdot]
      exact hascend
    · intro hon heq
      have htiles := h.tiles hon (hsame heq)
      obtain ⟨pattern, hfill⟩ := Option.isSome_iff_exists.mp htiles.1
      have hge : t.dot ≤ w.engine.dot := Nat.le_of_not_lt fun hlt => hpad ⟨pattern, hfill, hlt⟩
      have hdot : t.dot = w.engine.dot := Nat.le_antisymm hge hle
      refine ⟨htiles.1, ?_⟩
      show Tiles 0 ((t.pad sec.index w.engine.dot w.fill).dot - sec.vma) _
      rw [kdot, hdot]
      exact htiles.2

theorem filterMap_concat {α β : Type} (f : α → Option β) (l : List α) (a : α) :
    (l ++ [a]).filterMap f = l.filterMap f ++ (f a).toList := by
  rw [List.filterMap_append]
  cases h : f a <;> simp [h]

/-- **`.` moves behind what is placed.** -/
theorem put (h : Laid link sec errors₀ filled entries₀ done w log) (w' : Walk) (ev : Placed)
    (hoffset : ev.offset = w.engine.dot - sec.vma) (hfill : ev.fill? = none)
    (hdot : w'.engine.dot = w.engine.dot + ev.size) (hlt : w.engine.dot + ev.size < 2 ^ 64)
    (hcurrent : w'.engine.current = w.engine.current)
    (hfinal : w'.engine.finalPass = w.engine.finalPass)
    (herrors : w.engine.errors <+: w'.engine.errors) (hw : w'.fill = w.fill)
    (hview : w'.engine.view sec.index =
      some (sec.vma, log.filterMap Placed.fill?, log.filterMap Placed.data? ++ ev.data?.toList))
    (hpools : w'.pools.map (fun p => (p.2.2, link.thunks.sizeOf sec.index p.1)) =
      log.filterMap Placed.pool? ++ ev.pool?.toList)
    {entries : List Entry} (hget : w'.engine.entries[sec.index]? = some entries)
    (hmap : entries.map (fun e => { e with offset := 0 }) =
      entries₀.map (fun e => { e with offset := 0 }))
    (hstands : ∀ p ∈ log, Stands sec entries p) (hev : Stands sec entries ev) :
    Laid link sec errors₀ filled entries₀ (done ++ ev.asked.toList) w' (log ++ [ev]) := by
  have hvma := h.vma_le
  have hstop : w'.engine.dot - sec.vma = w.engine.dot - sec.vma + ev.size := by omega
  have hrun : ev.run = (w.engine.dot - sec.vma, ev.size) := by rw [Placed.run, hoffset]
  refine ⟨hcurrent.trans h.current, hfinal.trans h.finalPass, ?_, ?_, ⟨entries, hget, hmap, ?_⟩, ?_,
    by omega, by omega, ?_, h.errors.trans herrors, ?_⟩
  · rw [hview, filterMap_concat, filterMap_concat, hfill, Option.toList_none, List.append_nil]
  · rw [hpools, filterMap_concat]
  · exact List.forall_mem_append.mpr ⟨hstands, List.forall_mem_singleton.mpr hev⟩
  · rw [filterMap_concat, h.order]
  · rw [hstop, List.map_append, List.map_singleton, hrun]
    exact h.ascend.concat _
  · intro hon heq
    have hsame : w.engine.errors = errors₀ :=
      (h.errors.eq_of_length_le (heq ▸ herrors).length_le).symm
    have htiles := h.tiles hon hsame
    rw [hw, hstop, List.map_append, List.map_singleton, hrun]
    exact ⟨htiles.1, tiles_concat _ _ htiles.2⟩

/-- **An evaluation leaves all as it is.** -/
theorem kept (h : Laid link sec errors₀ filled entries₀ done w log) (hkept : Kept w.engine e)
    (fill : Option ℕ) (hfill : filled = true → e.errors = errors₀ → w.fill.isSome → fill.isSome) :
    Laid link sec errors₀ filled entries₀ done { w with engine := e, fill := fill } log := by
  refine ⟨hkept.current.trans h.current, hkept.finalPass.trans h.finalPass, ?_, h.pools, ?_,
    h.order, ?_, ?_, ?_, h.errors.trans hkept.errors, ?_⟩
  · show e.view sec.index = _
    rw [← h.view, Engine.view, Engine.view, hkept.outs]
  · obtain ⟨entries, hget, hrest⟩ := h.entries
    exact ⟨entries, (congrArg (·[sec.index]?) hkept.entries).trans hget, hrest⟩
  · exact hkept.dot ▸ h.vma_le
  · exact hkept.dot ▸ h.dot_lt
  · show Ascend 0 (e.dot - sec.vma) _
    rw [hkept.dot]
    exact h.ascend
  · intro hon heq
    have hsame : w.engine.errors = errors₀ :=
      (h.errors.eq_of_length_le (heq ▸ hkept.errors).length_le).symm
    have htiles := h.tiles hon hsame
    refine ⟨hfill hon heq htiles.1, ?_⟩
    show Tiles 0 (e.dot - sec.vma) _
    rw [hkept.dot]
    exact htiles.2

end Laid

/-! ### The steps -/

section Steps

variable {link : Link} {sec : Section} {errors₀ : List (Span × Failure)} {filled : Bool}
  {entries₀ : List Entry} {done : List Content} {w : Walk} {log : List Placed}

theorem wrapped_goto (dot exact_ : ℕ) :
    (w.goto dot exact_).wrapped = false ↔ w.wrapped = false ∧ exact_ < 2 ^ 64 := by
  rw [Walk.goto, Bool.or_eq_false_iff, decide_eq_false_iff_not, Nat.not_le]

theorem wrapped_advance {size : ℕ} :
    (w.advance size).wrapped = false ↔ w.wrapped = false ∧ w.engine.dot + size < 2 ^ 64 :=
  wrapped_goto _ _

theorem view_dot (e : Engine) (index dot : ℕ) : ({ e with dot := dot }).view index = e.view index :=
  rfl

theorem laid_reservePool (h : Laid link sec errors₀ filled entries₀ done w log)
    (hw : (w.reservePool link sec).wrapped = false) :
    ∃ log', Laid link sec errors₀ filled entries₀ done (w.reservePool link sec) log' := by
  obtain ⟨pool, hpool⟩ : ∃ pool, pool = min w.pools.length U32_MAX := ⟨_, rfl⟩
  obtain ⟨bytes, hbytes⟩ : ∃ bytes, bytes = link.thunks.sizeOf sec.index pool := ⟨_, rfl⟩
  obtain ⟨start, hstart⟩ : ∃ start, start =
      if bytes = 0 then w.engine.dot - sec.vma else Script.alignUp (w.engine.dot - sec.vma) 4 := ⟨_, rfl⟩
  obtain ⟨t, ht⟩ : ∃ t, t = { w.engine with dot := wrappingAdd sec.vma start } := ⟨_, rfl⟩
  obtain ⟨b, hb⟩ : ∃ b, b = (w.wrapped || decide (2 ^ 64 ≤ if bytes = 0 then sec.vma + start
      else max (w.engine.dot - sec.vma + 3) (sec.vma + start))) := ⟨_, rfl⟩
  have hreserve : w.reservePool link sec =
      { Walk.advance { w with
            engine := t.pad sec.index w.engine.dot w.fill
            wrapped := b } bytes with
        pools := w.pools ++ [(pool, w.engine.dot - sec.vma - w.taken, start)]
        taken := saturatingAdd w.taken (wrappingSub (wrappingAdd
          (t.pad sec.index w.engine.dot w.fill).dot bytes) w.engine.dot) } := by
    rw [hb, ht, hstart, hbytes, hpool, ← h.offset_eq]
    rfl
  rw [hreserve] at hw
  obtain ⟨hbfalse, hstop⟩ := wrapped_advance.mp hw
  have hbound : (if bytes = 0 then sec.vma + start
      else max (w.engine.dot - sec.vma + 3) (sec.vma + start)) < 2 ^ 64 := by
    have hbfalse : b = false := hbfalse
    rw [hb, Bool.or_eq_false_iff, decide_eq_false_iff_not, Nat.not_le] at hbfalse
    exact hbfalse.2
  have hge : w.engine.dot - sec.vma ≤ start ∧ sec.vma + start < 2 ^ 64 := by
    by_cases hzero : bytes = 0
    · rw [if_pos hzero] at hstart hbound
      exact ⟨hstart.ge, hbound⟩
    · rw [if_neg hzero] at hstart hbound
      have halign := Script.alignUp_spec (w.engine.dot - sec.vma) 4 (by omega)
      exact ⟨hstart ▸ halign.1, by omega⟩
  have hdot : t.dot = sec.vma + start := by
    rw [ht]
    exact wrappingAdd_of_lt hge.2
  have hvma := h.vma_le
  obtain ⟨log', hlog⟩ := h.gap (t := t) (by rw [ht]) (by rw [ht, view_dot]) (by rw [ht])
    (by rw [ht]) (by rw [ht]) (by omega) (by omega) b
  obtain ⟨-, kdot, kcurrent, kfinal, kerrors⟩ := Laid.kept_pad t sec.index w.engine.dot w.fill
  have hsum : (t.pad sec.index w.engine.dot w.fill).dot + bytes < 2 ^ 64 := hstop
  have hadd : wrappingAdd (t.pad sec.index w.engine.dot w.fill).dot bytes =
      (t.pad sec.index w.engine.dot w.fill).dot + bytes := wrappingAdd_of_lt hsum
  obtain ⟨entries, hget, hmap, hstands⟩ := hlog.entries
  have hput := hlog.put (w.reservePool link sec) ⟨.pool, start, bytes⟩
    (show start = (t.pad sec.index w.engine.dot w.fill).dot - sec.vma by
      rw [kdot, hdot, Nat.add_sub_cancel_left])
    rfl (by rw [hreserve]; exact hadd) hsum (by rw [hreserve]; rfl) (by rw [hreserve]; rfl)
    (by rw [hreserve]; exact List.prefix_rfl) (by rw [hreserve]; rfl)
    (by
      rw [hreserve, Placed.data?, Option.toList_none, List.append_nil]
      exact hlog.view)
    (by
      rw [hreserve, List.map_append, hlog.pools, List.map_singleton, ← hbytes]
      rfl)
    (by rw [hreserve]; exact hget) hmap hstands (by rintro i ⟨⟩)
  rw [Placed.asked, Option.toList_none, List.append_nil] at hput
  exact ⟨_, hput⟩

theorem laid_emit (h : Laid link sec errors₀ filled entries₀ done w log) (k : ℕ)
    (bytes : List UInt8) (hw : (w.emit sec bytes).wrapped = false) :
    ∃ log', Laid link sec errors₀ filled entries₀ (done ++ [.data k]) (w.emit sec bytes) log' := by
  obtain ⟨-, hlt⟩ := wrapped_advance.mp hw
  obtain ⟨entries, hget, hmap, hstands⟩ := h.entries
  have hview : (w.emit sec bytes).engine.view sec.index =
      some (sec.vma, log.filterMap Placed.fill?,
        log.filterMap Placed.data? ++ [(w.engine.dot - sec.vma, bytes.length)]) := by
    refine Laid.view_modifyOut h.view _ fun out hout hfills hdata => ⟨hout, hfills, ?_⟩
    rw [h.finalPass, if_pos rfl, List.map_append, hdata, h.offset_eq]
    rfl
  have hput := h.put (w.emit sec bytes) ⟨.data k, w.engine.dot - sec.vma, bytes.length⟩ rfl rfl
    (wrappingAdd_of_lt hlt) hlt rfl rfl List.prefix_rfl rfl hview
    (h.pools.trans (List.append_nil _).symm) hget hmap hstands (by rintro i ⟨⟩)
  exact ⟨_, hput⟩

variable {i : ℕ} {entry₀ : Entry}

theorem entry_of_map {entries : List Entry} (hmap : entries.map (fun e => { e with offset := 0 }) =
      entries₀.map (fun e => { e with offset := 0 })) (hi : entries₀[i]? = some entry₀) :
    ∃ offset, entries[i]? = some { entry₀ with offset := offset } := by
  have hget := congrArg (·[i]?) hmap
  simp only [List.getElem?_map, hi, Option.map_some] at hget
  obtain ⟨entry, hentry, heq⟩ := Option.map_eq_some_iff.mp hget
  refine ⟨entry.offset, hentry.trans (congrArg some ?_)⟩
  obtain ⟨member, sub, size, align, offset⟩ := entry
  simp only [Entry.mk.injEq] at heq ⊢
  exact ⟨heq.1, heq.2.1, heq.2.2.1, heq.2.2.2.1, trivial⟩

theorem kept_place (e : Engine) (index i : ℕ) (member : Member) (offset : ℕ) :
    (e.place index i member offset).entries = e.entries.modify index (fun list =>
        list.modify i fun entry => { entry with offset := offset }) ∧
      (e.place index i member offset).outs = e.outs ∧
      (e.place index i member offset).dot = e.dot ∧
      (e.place index i member offset).current = e.current ∧
      (e.place index i member offset).finalPass = e.finalPass ∧
      (e.place index i member offset).errors = e.errors := by
  cases member with
  | input id => exact ⟨rfl, rfl, rfl, rfl, rfl, rfl⟩
  | merge group => exact ⟨rfl, rfl, rfl, rfl, rfl, rfl⟩
  | synthetic kind => exact ⟨rfl, rfl, rfl, rfl, rfl, rfl⟩

theorem map_modify_offset (entries : List Entry) (i offset : ℕ) :
    (entries.modify i fun entry => { entry with offset := offset }).map
        (fun e => { e with offset := 0 }) = entries.map (fun e => { e with offset := 0 }) := by
  apply List.ext_getElem?
  intro j
  rw [List.getElem?_map, List.getElem?_map, List.getElem?_modify]
  cases entries[j]? with
  | none => rfl
  | some entry =>
    show some _ = some _
    dsimp only
    split <;> rfl

/-- **A member is placed.** -/
theorem Laid.place (h : Laid link sec errors₀ filled entries₀ done w log)
    (hi : entries₀[i]? = some entry₀) (hnew : .member i ∉ done)
    (halign : sec.alignOf entry₀ ∣ w.engine.dot) (hlt : w.engine.dot + entry₀.size < 2 ^ 64) :
    ∃ log', Laid link sec errors₀ filled entries₀ (done ++ [.member i]) (Walk.advance { w with
      engine := w.engine.place sec.index i entry₀.member (w.engine.dot - sec.vma) } entry₀.size)
      log' := by
  obtain ⟨kentries, kouts, kdot, kcurrent, kfinal, kerrors⟩ :=
    kept_place w.engine sec.index i entry₀.member (w.engine.dot - sec.vma)
  obtain ⟨entries, hget, hmap, hstands⟩ := h.entries
  obtain ⟨offset, hentry⟩ := entry_of_map hmap hi
  have hget' :
      (w.engine.place sec.index i entry₀.member (w.engine.dot - sec.vma)).entries[sec.index]? =
      some (entries.modify i fun entry => { entry with offset := w.engine.dot - sec.vma }) := by
    rw [kentries, List.getElem?_modify_eq, hget]
    rfl
  have hvma := h.vma_le
  have hother : ∀ p ∈ log, Stands sec
      (entries.modify i fun entry => { entry with offset := w.engine.dot - sec.vma }) p := by
    intro p hp j hj
    have hne : i ≠ j := by
      rintro rfl
      have hasked : p.asked = some (.member i) := by rw [Placed.asked, hj]
      exact hnew (h.order ▸ List.mem_filterMap.mpr ⟨p, hp, hasked⟩)
    rw [List.getElem?_modify_ne _ _ hne]
    exact hstands p hp j hj
  have hself : Stands sec
      (entries.modify i fun entry => { entry with offset := w.engine.dot - sec.vma })
      ⟨.member i, w.engine.dot - sec.vma, entry₀.size⟩ := by
    rintro j ⟨⟩
    rw [List.getElem?_modify_eq, hentry]
    refine ⟨_, rfl, rfl, rfl, ?_⟩
    show sec.alignOf entry₀ ∣ sec.vma + (w.engine.dot - sec.vma)
    rw [Nat.add_sub_cancel' hvma]
    exact halign
  have hview : (w.engine.place sec.index i entry₀.member (w.engine.dot - sec.vma)).view sec.index =
      w.engine.view sec.index := by
    rw [Engine.view, kouts]
    rfl
  have hput := h.put (Walk.advance { w with
      engine := w.engine.place sec.index i entry₀.member (w.engine.dot - sec.vma) } entry₀.size)
    ⟨.member i, w.engine.dot - sec.vma, entry₀.size⟩ rfl rfl
    (by
      show wrappingAdd _ _ = _
      rw [kdot]
      exact wrappingAdd_of_lt hlt)
    hlt kcurrent kfinal (kerrors ▸ List.prefix_rfl) rfl
    ((hview.trans h.view).trans (by rw [Placed.data?, Option.toList_none, List.append_nil]))
    (h.pools.trans (List.append_nil _).symm) hget'
    ((map_modify_offset entries i _).trans hmap) hother hself
  exact ⟨_, hput⟩

theorem alignOf_pos {entry : Entry} (h : 1 ≤ entry.align) : 1 ≤ sec.alignOf entry := by
  unfold Section.alignOf
  cases sec.subalign with
  | none => exact h
  | some s => exact Nat.le_max_right s 1

theorem laid_placeEntry (h : Laid link sec errors₀ filled entries₀ done w log) (lastRun : Option ℕ)
    (hi : entries₀[i]? = some entry₀) (hpos : 1 ≤ entry₀.align) (hnew : .member i ∉ done)
    (hw : (w.placeEntry link sec lastRun i).wrapped = false) :
    ∃ log', Laid link sec errors₀ filled entries₀ (done ++ [.member i])
      (w.placeEntry link sec lastRun i) log' := by
  obtain ⟨entries, hget, hmap, -⟩ := h.entries
  obtain ⟨offset, hentry⟩ := entry_of_map hmap hi
  have hentry? : w.entry? sec i = some { entry₀ with offset := offset } := by
    rw [Walk.entry?, hget]
    exact hentry
  obtain ⟨w₁, hw₁⟩ : ∃ w₁, w₁ =
      if w.poolDue link sec lastRun then w.reservePool link sec else w := ⟨_, rfl⟩
  obtain ⟨aligned, haligned⟩ : ∃ aligned,
      aligned = Script.alignUp w₁.engine.dot (sec.alignOf entry₀) := ⟨_, rfl⟩
  obtain ⟨w₂, hw₂⟩ : ∃ w₂, w₂ =
      (w₁.goto aligned (w₁.engine.dot + (sec.alignOf entry₀ - 1))).pad sec w₁.engine.dot :=
    ⟨_, rfl⟩
  have hplace : w.placeEntry link sec lastRun i = Walk.advance { w₂ with
      engine := w₂.engine.place sec.index i entry₀.member (wrappingSub aligned sec.vma) }
      entry₀.size := by
    rw [hw₂, haligned, hw₁, Walk.placeEntry, hentry?]
    rfl
  rw [hplace] at hw ⊢
  obtain ⟨hwrap, hstop⟩ := wrapped_advance.mp hw
  have hwrap₂ : w₂.wrapped = false := hwrap
  rw [hw₂] at hwrap₂
  obtain ⟨hwrap₁, hround⟩ := (wrapped_goto aligned _).mp hwrap₂
  obtain ⟨log₁, h₁⟩ : ∃ log₁, Laid link sec errors₀ filled entries₀ done w₁ log₁ := by
    rw [hw₁] at hwrap₁ ⊢
    split at hwrap₁
    · next hdue =>
      rw [if_pos hdue]
      exact laid_reservePool h hwrap₁
    · next hdue =>
      rw [if_neg hdue]
      exact ⟨log, h⟩
  obtain ⟨hge, hlt, hdvd⟩ := Script.alignUp_spec w₁.engine.dot (sec.alignOf entry₀) hround
  rw [← haligned] at hge hlt hdvd
  obtain ⟨log₂, h₂⟩ := h₁.gap (t := { w₁.engine with dot := aligned }) rfl rfl rfl rfl
    List.prefix_rfl hge hlt (w₁.wrapped || decide (2 ^ 64 ≤
      w₁.engine.dot + (sec.alignOf entry₀ - 1)))
  have hlaid : Laid link sec errors₀ filled entries₀ done w₂ log₂ := by
    rw [hw₂]
    exact h₂
  have hdot : w₂.engine.dot = aligned := by
    rw [hw₂]
    exact (Laid.kept_pad _ _ _ _).2.1
  have hsub : wrappingSub aligned sec.vma = w₂.engine.dot - sec.vma := by
    rw [← hdot, hlaid.offset_eq]
  have hsum : w₂.engine.dot + entry₀.size < 2 ^ 64 := by
    obtain ⟨-, -, hkept, -⟩ :=
      kept_place w₂.engine sec.index i entry₀.member (wrappingSub aligned sec.vma)
    rw [← hkept]
    exact hstop
  rw [hsub]
  exact hlaid.place hi hnew (hdot ▸ hdvd (alignOf_pos hpos)) hsum

/-! ### Items -/

theorem fillPattern_ne_nil {e : Engine} {fill : Fill} {pattern : List UInt8} {t : Engine}
    (h : run (fillPattern (e.context link) fill) e = (.ok pattern, t)) : pattern ≠ [] := by
  unfold fillPattern at h
  split at h
  · next d digits _ =>
    cases h
    split
    · exact List.cons_ne_nil _ _
    · next heven =>
      cases digits with
      | nil => exact absurd rfl heven
      | cons d' digits => exact List.cons_ne_nil _ _
  · rw [run_bind] at h
    split at h
    · cases h
      exact List.cons_ne_nil _ _
    · cases h

theorem fillPattern_kept (link : Link) (e : Engine) (fill : Fill) (s : Engine) :
    Kept s (run (fillPattern (e.context link) fill) s).2 := by
  have hpattern : Preserves Kept (fillPattern (e.context link) fill) := by
    unfold fillPattern
    split
    · exact .ret Kept.refl _
    · exact Preserves.thenRet Kept.refl Kept.trans
        (eval_preserves Kept.refl Kept.trans (Engine.context_preserves link e) _) _
  exact hpattern s

theorem kept_fillIndex (e : Engine) (pattern : List UInt8) : Kept e (e.fillIndex pattern).2 := by
  unfold Engine.fillIndex
  split
  · exact .refl e
  · exact ⟨rfl, rfl, rfl, rfl, rfl, List.prefix_rfl⟩

/-- A fill changes nothing but the patterns, and is in force unless there was an error. -/
theorem fillValue_kept (link : Link) (e : Engine) (fill : Fill) (index : ℕ) :
    Kept e (e.fillValue link fill index).2 ∧
      (e.finalPass = true → (e.fillValue link fill index).2.errors = e.errors →
        (e.fillValue link fill index).1.isSome) := by
  obtain ⟨s, hs⟩ : ∃ s : Engine, s = { e with current := some index } := ⟨_, rfl⟩
  have hkept := fillPattern_kept link s fill s
  -- The current section is put back.
  have hback (t : Engine) (ht : Kept s t) : Kept e { t with current := e.current } := by
    rw [hs] at ht
    exact ⟨ht.entries, ht.outs, ht.dot, rfl, ht.finalPass, ht.errors⟩
  cases hrun : run (fillPattern (s.context link) fill) s with
  | mk r t =>
    rw [hrun] at hkept
    cases r with
    | ok pattern =>
      have hne : pattern.isEmpty = false := by
        rw [List.isEmpty_eq_false_iff]
        exact fillPattern_ne_nil hrun
      have hvalue : e.fillValue link fill index =
          (some ({ t with current := e.current }.fillIndex pattern).1,
            ({ t with current := e.current }.fillIndex pattern).2) := by
        unfold Engine.fillValue
        simp only [← hs, hrun, hne, Bool.false_eq_true, if_false]
      rw [hvalue]
      exact ⟨(hback t hkept).trans _ _ _ (kept_fillIndex _ pattern), fun _ _ => rfl⟩
    | error error =>
      have hvalue : e.fillValue link fill index =
          (none, { t.recordError t.span error with current := e.current }) := by
        unfold Engine.fillValue
        simp only [← hs, hrun, List.isEmpty_nil, if_true]
      have hrecord := hkept.trans _ _ _ (Engine.kept_recordError t t.span error)
      rw [hvalue]
      refine ⟨hback _ hrecord, fun hfinal heq => ?_⟩
      -- In the final pass the error is recorded.
      have hfin : t.finalPass = true := by
        rw [hkept.finalPass, hs]
        exact hfinal
      have hlen : s.errors.length ≤ t.errors.length := hkept.errors.length_le
      have heq' : (t.recordError t.span error).errors = e.errors := heq
      rw [Engine.recordError, if_pos hfin] at heq'
      have hlen' := congrArg List.length heq'
      rw [List.length_append, List.length_singleton] at hlen'
      have hserr : s.errors = e.errors := by rw [hs]
      rw [hserr] at hlen
      omega

/-- **One item.** -/
theorem laid_item (h : Laid link sec errors₀ filled entries₀ done w log) (item : Item) (k : ℕ)
    (hw : (w.item link sec item).wrapped = false) :
    ∃ log', Laid link sec errors₀ filled entries₀ (done ++ stepOrder (.item item, k))
      (w.item link sec item) log' := by
  have hsome : w.engine.current.isSome := by
    rw [h.current]
    rfl
  have hnil : done ++ [] = done := List.append_nil done
  cases item with
  | input index => exact ⟨log, hnil.symm ▸ h⟩
  | assign a span =>
    have hmoved := Engine.assignment_moved link hsome a span
    have hkept := hmoved.kept
    show ∃ log', Laid link sec errors₀ filled entries₀ (done ++ []) _ log'
    rw [hnil, Walk.item]
    split
    · refine h.gap (t := (w.engine.assignment link a span).modifyOut sec.index fun out =>
        { out with dotMoved := true }) hkept.entries ?_ hkept.current hkept.finalPass hkept.errors
        hmoved.le (hmoved.lt h.dot_lt) w.wrapped
      have hview : (w.engine.assignment link a span).view sec.index = w.engine.view sec.index := by
        rw [Engine.view, hkept.outs]
        rfl
      rw [h.view]
      exact Laid.view_modifyOut (hview.trans h.view) _ fun out hout hfills hdata =>
        ⟨hout, hfills, hdata⟩
    · next heq =>
      have hsame : Kept w.engine (w.engine.assignment link a span) :=
        ⟨hkept.entries, hkept.outs, not_ne_iff.mp heq, hkept.current, hkept.finalPass, hkept.errors⟩
      exact ⟨log, h.kept hsame w.fill fun _ _ hfill => hfill⟩
  | data size expr span =>
    have hspan := Engine.kept_span w.engine span
    have hrun := Engine.eval_kept link { w.engine with span := span } expr
      { w.engine with span := span }
    have hkept := hspan.trans _ _ _ hrun
    rw [Walk.item] at hw ⊢
    dsimp only at hw ⊢
    split at hw
    · next v t heq =>
      rw [heq] at hkept
      exact laid_emit (h.kept hkept w.fill fun _ _ hfill => hfill) k _ hw
    · next error t heq =>
      rw [heq] at hkept
      have hrecord := hkept.trans _ _ _ (Engine.kept_recordError t span error)
      exact laid_emit (h.kept hrecord w.fill fun _ _ hfill => hfill) k _ hw
  | fill fill =>
    obtain ⟨hkept, hsome⟩ := fillValue_kept link w.engine fill sec.index
    refine ⟨log, hnil.symm ▸ h.kept hkept _ fun _ heq _ => hsome h.finalPass ?_⟩
    exact heq.trans (h.errors.eq_of_length_le (heq ▸ hkept.errors).length_le)
  | asciz text => exact laid_emit h k _ hw
  | linkerVersion => exact laid_emit h k _ hw
  | assert a span =>
    exact ⟨log, hnil.symm ▸ h.kept (Engine.assert_kept a span) w.fill fun _ _ hfill => hfill⟩

/-! ### Runs -/

theorem wrapped_reservePool (hw : (w.reservePool link sec).wrapped = false) : w.wrapped = false :=
  (Bool.or_eq_false_iff.mp (Bool.or_eq_false_iff.mp hw).1).1

variable {lastRun : Option ℕ}

theorem wrapped_placeEntry (hw : (w.placeEntry link sec lastRun i).wrapped = false) :
    w.wrapped = false := by
  unfold Walk.placeEntry at hw
  split at hw
  · exact hw
  · have hpool := (Bool.or_eq_false_iff.mp (Bool.or_eq_false_iff.mp hw).1).1
    split at hpool
    · exact wrapped_reservePool hpool
    · exact hpool

theorem wrapped_item {item : Item} (hw : (w.item link sec item).wrapped = false) :
    w.wrapped = false := by
  cases item with
  | input index => exact hw
  | assign a span =>
    unfold Walk.item at hw
    dsimp only at hw
    split at hw
    · exact hw
    · exact hw
  | data size expr span =>
    unfold Walk.item at hw
    dsimp only at hw
    split at hw
    · exact (wrapped_advance.mp hw).1
    · exact (wrapped_advance.mp hw).1
  | fill fill => exact hw
  | asciz text => exact (wrapped_advance.mp hw).1
  | linkerVersion => exact (wrapped_advance.mp hw).1
  | assert a span => exact hw

theorem wrapped_entries {l : List ℕ}
    (hw : (l.foldl (fun w i => w.placeEntry link sec lastRun i) w).wrapped = false) :
    w.wrapped = false := by
  induction l generalizing w with
  | nil => exact hw
  | cons i l ih => exact wrapped_placeEntry (ih hw)

theorem wrapped_step {s : Step × ℕ} (hw : (w.step link sec lastRun s).wrapped = false) :
    w.wrapped = false := by
  unfold Walk.step at hw
  split at hw
  · dsimp only at hw
    split at hw
    · exact wrapped_entries (wrapped_reservePool hw)
    · exact wrapped_entries hw
  · exact wrapped_item hw

theorem wrapped_steps {steps : List (Step × ℕ)}
    (hw : (steps.foldl (fun w s => w.step link sec lastRun s) w).wrapped = false) :
    w.wrapped = false := by
  induction steps generalizing w with
  | nil => exact hw
  | cons s steps ih => exact wrapped_step (ih hw)

theorem laid_entries (lastRun : Option ℕ) (hpos : ∀ entry ∈ entries₀, 1 ≤ entry.align)
    (l : List ℕ) : ∀ {done : List Content} {w : Walk} {log : List Placed},
    Laid link sec errors₀ filled entries₀ done w log → (∀ i ∈ l, i < entries₀.length) →
    ((done ++ l.map Content.member).filterMap Content.member?).Nodup →
    (l.foldl (fun w i => w.placeEntry link sec lastRun i) w).wrapped = false →
    ∃ log', Laid link sec errors₀ filled entries₀ (done ++ l.map Content.member)
      (l.foldl (fun w i => w.placeEntry link sec lastRun i) w) log' := by
  induction l with
  | nil =>
    intro done w log h _ _ _
    exact ⟨log, (List.append_nil done).symm ▸ h⟩
  | cons i l ih =>
    intro done w log h hlt hnodup hw
    have hi := List.getElem?_eq_getElem (hlt i List.mem_cons_self)
    have hnew : .member i ∉ done := by
      intro hmem
      rw [List.filterMap_append] at hnodup
      exact (List.nodup_append.mp hnodup).2.2 i (List.mem_filterMap.mpr ⟨_, hmem, rfl⟩) i
        (List.mem_filterMap.mpr ⟨_, List.mem_map_of_mem List.mem_cons_self, rfl⟩) rfl
    obtain ⟨log₁, h₁⟩ := laid_placeEntry h lastRun hi (hpos _ (List.getElem_mem _)) hnew
      (wrapped_entries hw)
    have hsplit : done ++ (i :: l).map Content.member =
        done ++ [.member i] ++ l.map Content.member := by
      rw [List.map_cons, List.append_assoc, List.singleton_append]
    rw [hsplit] at hnodup ⊢
    exact ih h₁ (fun j hj => hlt j (List.mem_cons_of_mem _ hj)) hnodup hw

/-- **One step.** -/
theorem laid_step (h : Laid link sec errors₀ filled entries₀ done w log) (lastRun : Option ℕ)
    (hpos : ∀ entry ∈ entries₀, 1 ≤ entry.align) (s : Step × ℕ)
    (hlt : ∀ i, .member i ∈ stepOrder s → i < entries₀.length)
    (hnodup : ((done ++ stepOrder s).filterMap Content.member?).Nodup)
    (hw : (w.step link sec lastRun s).wrapped = false) :
    ∃ log', Laid link sec errors₀ filled entries₀ (done ++ stepOrder s)
      (w.step link sec lastRun s) log' := by
  obtain ⟨step, k⟩ := s
  cases step with
  | item item => exact laid_item h item k hw
  | run start stop =>
    have hmem (i : ℕ) (hi : i ∈ List.range' start (stop - start)) : i < entries₀.length :=
      hlt i (List.mem_map_of_mem hi)
    unfold Walk.step at hw ⊢
    dsimp only at hw ⊢
    split at hw
    · next hlast =>
      obtain ⟨log₁, h₁⟩ := laid_entries lastRun hpos _ h hmem hnodup (wrapped_reservePool hw)
      rw [if_pos hlast]
      exact laid_reservePool h₁ hw
    · next hlast =>
      rw [if_neg hlast]
      exact laid_entries lastRun hpos _ h hmem hnodup hw

/-- **All steps.** -/
theorem laid_steps (lastRun : Option ℕ) (hpos : ∀ entry ∈ entries₀, 1 ≤ entry.align)
    (steps : List (Step × ℕ)) : ∀ {done : List Content} {w : Walk} {log : List Placed},
    Laid link sec errors₀ filled entries₀ done w log →
    (∀ i, .member i ∈ steps.flatMap stepOrder → i < entries₀.length) →
    ((done ++ steps.flatMap stepOrder).filterMap Content.member?).Nodup →
    (steps.foldl (fun w s => w.step link sec lastRun s) w).wrapped = false →
    ∃ log', Laid link sec errors₀ filled entries₀ (done ++ steps.flatMap stepOrder)
      (steps.foldl (fun w s => w.step link sec lastRun s) w) log' := by
  induction steps with
  | nil =>
    intro done w log h _ _ _
    exact ⟨log, (List.append_nil done).symm ▸ h⟩
  | cons s steps ih =>
    intro done w log h hlt hnodup hw
    rw [List.flatMap_cons, ← List.append_assoc] at hnodup ⊢
    have hfirst : ((done ++ stepOrder s).filterMap Content.member?).Nodup := by
      rw [List.filterMap_append] at hnodup
      exact hnodup.of_append_left
    obtain ⟨log₁, h₁⟩ := laid_step h lastRun hpos s
      (fun i hi => hlt i (List.mem_flatMap.mpr ⟨s, List.mem_cons_self, hi⟩)) hfirst
      (wrapped_steps hw)
    refine ih h₁ (fun i hi => hlt i ?_) hnodup hw
    rw [List.flatMap_cons]
    exact List.mem_append_right _ hi

end Steps

end Qld.Elf.ScriptLayout
