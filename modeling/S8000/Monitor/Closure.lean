import S8000.Monitor.Trace

namespace S8000.Monitor

open Foundation

variable {decode : Decoder} {size : ℤ}

section Follow

/-- Where the run stands when its listing ends before a terminator or known code. -/
def runsOut (code : Dict ℤ Insn) (addr : ℤ) : List (ℤ × Insn) → Option ℤ
  | [] => some addr
  | (a, i) :: rest => if a ∈ code ∨ i.Terminates then none else runsOut (code.set a i) (a + i.length) rest

/-- What following the listing from `start` to `stop` makes of `code` and `pending`. -/
structure Followed (decode : Decoder) (start stop : ℤ) (code : Dict ℤ Insn) (pending : List ℤ)
    (next : Dict ℤ Insn × List ℤ) (out : Option ℤ) : Prop where
  kept : ∀ a i, code.get? a = some i → next.1.get? a = some i
  new : ∀ a i, next.1.get? a = some i → code.get? a = some i ∨ start ≤ a ∧ a < stop ∧ i = decode a
  waits : ∀ t ∈ pending, t ∈ next.2
  origin : ∀ t ∈ next.2, t ∈ pending ∨ ∃ x ∈ disasm decode start stop, x.2.target = some t
  target : ∀ a ∈ next.1, a ∈ code ∨ ∀ t, (decode a).target = some t → t ∈ next.1 ∨ t ∈ next.2
  begins : start < stop → start ∈ next.1
  falls : ∀ a ∈ next.1, a ∈ code ∨ (decode a).Terminates ∨ a + (decode a).length ∈ next.1 ∨
    out = some (a + (decode a).length)
  empty : stop ≤ start → out = some start
  listed : ∀ e, out = some e → ∀ x ∈ disasm decode start stop, x.1 ∈ next.1
  cut : ∀ e, out = some e → stop ≤ e ∧
    (start < stop → ∃ a ∈ next.1, ¬ (decode a).Terminates ∧ a + (decode a).length = e)

theorem mem_addTarget {code : Dict ℤ Insn} {pending : List ℤ} {target : Option ℤ} {t : ℤ} :
    t ∈ addTarget code pending target ↔ t ∈ pending ∨ target = some t ∧ t ∉ code := by
  cases target with
  | none => simp [addTarget]
  | some target =>
    rw [addTarget]
    split
    · rename_i hmem
      constructor
      · exact .inl
      · rintro (h | ⟨h, hnot⟩)
        · exact h
        · cases h
          exact absurd hmem hnot
    · rename_i hnot
      rw [List.mem_cons, Option.some.injEq]
      constructor
      · rintro (rfl | h)
        · exact .inr ⟨rfl, hnot⟩
        · exact .inl h
      · rintro (h | ⟨rfl, -⟩)
        · exact .inr h
        · exact .inl rfl

theorem mem_or_mem_addTarget {code : Dict ℤ Insn} {pending : List ℤ} {target : Option ℤ} {t : ℤ}
    (h : target = some t) : t ∈ code ∨ t ∈ addTarget code pending target := by
  by_cases ht : t ∈ code
  · exact .inl ht
  · exact .inr (mem_addTarget.mpr (.inr ⟨h, ht⟩))

theorem followed_empty {start stop : ℤ} (h : stop ≤ start) (code : Dict ℤ Insn) (pending : List ℤ) :
    Followed decode start stop code pending (code, pending) (some start) where
  kept _ _ := id
  new _ _ := .inl
  waits _ := id
  origin _ := .inl
  target _ := .inl
  begins hlt := absurd hlt (not_lt.mpr h)
  falls _ := .inl
  empty _ := rfl
  listed e _ x hx := by
    rw [disasm_of_le h] at hx
    cases hx
  cut e he := by
    cases he
    exact ⟨h, fun hlt ↦ absurd hlt (not_lt.mpr h)⟩

theorem followed_known {start stop : ℤ} {code : Dict ℤ Insn} (h : start ∈ code) (hlt : start < stop)
    (pending : List ℤ) : Followed decode start stop code pending (code, pending) none where
  kept _ _ := id
  new _ _ := .inl
  waits _ := id
  origin _ := .inl
  target _ := .inl
  begins _ := h
  falls _ := .inl
  empty hle := absurd hlt (not_lt.mpr hle)
  listed e he := by cases he
  cut e he := by cases he

section Decoded

variable {start stop : ℤ} {code : Dict ℤ Insn} {pending : List ℤ}

theorem get?_decoded {a : ℤ} {i : Insn} (hlt : start < stop)
    (h : (code.set start (decode start)).get? a = some i) :
    code.get? a = some i ∨ start ≤ a ∧ a < stop ∧ i = decode a := by
  rw [Dict.get?_set] at h
  split at h
  · rename_i ha
    subst ha
    exact .inr ⟨le_rfl, hlt, (Option.some.inj h).symm⟩
  · exact .inl h

theorem get?_kept {a : ℤ} {i : Insn} (hnew : start ∉ code) (h : code.get? a = some i) :
    (code.set start (decode start)).get? a = some i := by
  rw [Dict.get?_set_of_ne, h]
  rintro rfl
  exact hnew (Dict.mem_iff_get?_eq_some.mpr ⟨i, h⟩)

theorem origin_decoded {t : ℤ} (hlt : start < stop)
    (h : t ∈ addTarget (code.set start (decode start)) pending (decode start).target) :
    t ∈ pending ∨ ∃ x ∈ disasm decode start stop, x.2.target = some t := by
  refine (mem_addTarget.mp h).imp_right fun ht ↦ ⟨(start, decode start), ?_, ht.1⟩
  rw [disasm_of_lt hlt]
  exact List.mem_cons_self

theorem followed_terminator (hlt : start < stop) (hnew : start ∉ code) (h : (decode start).Terminates) :
    Followed decode start stop code pending (code.set start (decode start),
      addTarget (code.set start (decode start)) pending (decode start).target) none where
  kept _ _ := get?_kept hnew
  new _ _ := get?_decoded hlt
  waits _ ht := mem_addTarget.mpr (.inl ht)
  origin _ := origin_decoded hlt
  target a ha := by
    rcases Dict.mem_set.mp ha with rfl | ha
    · exact .inr fun t ht ↦ mem_or_mem_addTarget ht
    · exact .inl ha
  begins _ := Dict.mem_set.mpr (.inl rfl)
  falls a ha := by
    rcases Dict.mem_set.mp ha with rfl | ha
    · exact .inr (.inl h)
    · exact .inl ha
  empty hle := absurd hlt (not_lt.mpr hle)
  listed e he := by cases he
  cut e he := by cases he

theorem Followed.decoded {next : Dict ℤ Insn × List ℤ} {out : Option ℤ}
    (h : Followed decode (start + (decode start).length) stop (code.set start (decode start))
      (addTarget (code.set start (decode start)) pending (decode start).target) next out)
    (hlt : start < stop) (hnew : start ∉ code) (hgo : ¬ (decode start).Terminates) :
    Followed decode start stop code pending next out := by
  have hpos := (decode start).length_pos
  have hbegins : start ∈ next.1 :=
    Dict.mem_iff_get?_eq_some.mpr ⟨_, h.kept start _ (Dict.get?_set_self code start _)⟩
  -- the run went on behind `start`, or its listing ended there
  have hnext : start + (decode start).length ∈ next.1 ∨ out = some (start + (decode start).length) := by
    rcases lt_or_ge (start + (decode start).length) stop with hstop | hstop
    · exact .inl (h.begins hstop)
    · exact .inr (h.empty hstop)
  refine ⟨fun a i ha ↦ h.kept a i (get?_kept hnew ha), fun a i ha ↦ ?_,
    fun t ht ↦ h.waits t (mem_addTarget.mpr (.inl ht)), fun t ht ↦ ?_, fun a ha ↦ ?_, fun _ ↦ hbegins,
    fun a ha ↦ ?_, fun hle ↦ absurd hlt (not_lt.mpr hle), fun e he x hx ↦ ?_,
    fun e he ↦ ⟨(h.cut e he).1, fun _ ↦ ?_⟩⟩
  · rcases h.new a i ha with ha | ⟨hle, hstop, hi⟩
    · exact get?_decoded hlt ha
    · exact .inr ⟨by omega, hstop, hi⟩
  · rcases h.origin t ht with ht | ⟨x, hx, ht⟩
    · exact origin_decoded hlt ht
    · refine .inr ⟨x, ?_, ht⟩
      rw [disasm_of_lt hlt]
      exact List.mem_cons_of_mem _ hx
  · rcases h.target a ha with hmem | ht
    · rcases Dict.mem_set.mp hmem with rfl | hmem
      · refine .inr fun t ht ↦ ?_
        rcases @mem_or_mem_addTarget (code.set a (decode a)) pending _ _ ht with hcode | hwaits
        · obtain ⟨i, hi⟩ := Dict.mem_iff_get?_eq_some.mp hcode
          exact .inl (Dict.mem_iff_get?_eq_some.mpr ⟨i, h.kept t i hi⟩)
        · exact .inr (h.waits t hwaits)
      · exact .inl hmem
    · exact .inr ht
  · rcases h.falls a ha with hmem | hfalls
    · rcases Dict.mem_set.mp hmem with rfl | hmem
      · exact .inr (.inr hnext)
      · exact .inl hmem
    · exact .inr hfalls
  · rw [disasm_of_lt hlt] at hx
    rcases List.mem_cons.mp hx with rfl | hx
    · exact hbegins
    · exact h.listed e he x hx
  · rcases lt_or_ge (start + (decode start).length) stop with hstop | hstop
    · exact (h.cut e he).2 hstop
    · rw [h.empty hstop] at he
      exact ⟨start, hbegins, hgo, Option.some.inj he⟩

end Decoded

theorem followed_disasm (decode : Decoder) (start stop : ℤ) (code : Dict ℤ Insn) (pending : List ℤ) :
    Followed decode start stop code pending (follow code pending (disasm decode start stop))
      (runsOut code start (disasm decode start stop)) := by
  induction start using disasm.induct decode stop generalizing code pending with
  | case1 start hlt ih =>
    rw [disasm_of_lt hlt, follow, runsOut]
    by_cases hmem : start ∈ code
    · rw [if_pos hmem, if_pos (.inl hmem)]
      exact followed_known hmem hlt pending
    · rw [if_neg hmem]
      by_cases hterm : (decode start).Terminates
      · rw [if_pos hterm, if_pos (.inr hterm)]
        exact followed_terminator hlt hmem hterm
      · rw [if_neg hterm, if_neg (not_or.mpr ⟨hmem, hterm⟩)]
        exact (ih _ _).decoded hlt hmem hterm
  | case2 start hle =>
    rw [disasm_of_le (not_lt.mp hle), follow, runsOut]
    exact followed_empty (not_lt.mp hle) code pending

end Follow

section Discovery

/-- Every seed, every next instruction and every target inside the image is decoded or waits. -/
structure Discovered (decode : Decoder) (size : ℤ) (seeds : List ℤ) (code : Dict ℤ Insn) (pending : List ℤ) :
    Prop where
  decoded : ∀ a i, code.get? a = some i → i = decode a
  seeds : ∀ a ∈ seeds, 0 ≤ a → a < size → a ∈ code ∨ a ∈ pending
  targets : ∀ a i t, code.get? a = some i → i.target = some t → 0 ≤ t → t < size → t ∈ code ∨ t ∈ pending
  falls : ∀ a i, code.get? a = some i → ¬ i.Terminates → a + i.length < size →
    a + i.length ∈ code ∨ a + i.length ∈ pending

/-- Where the window cuts the run of the next seed short. -/
def State.cut (decode : Decoder) (size : ℤ) (s : State) : Option ℤ :=
  match s.pending with
  | [] => none
  | seed :: _ =>
    if s.Skips size seed then none
    else (runsOut s.code seed (listing decode size seed)).filter (· < size)

/-- A run that the window cuts short goes on where something is decoded, or waits, or is a target of the run. -/
def Covered (decode : Decoder) (size : ℤ) (s : State) : Prop :=
  ∀ e, s.cut decode size = some e → e ∈ s.code ∨ e ∈ s.pending ∨
    ∃ seed ∈ s.pending.head?, ∃ x ∈ listing decode size seed, x.2.target = some e

/-- What is known of every state of the loop. -/
structure Sound (decode : Decoder) (size : ℤ) (seeds : List ℤ) (s : State) : Prop where
  decoded : ∀ a i, s.code.get? a = some i → i = decode a
  inside : ∀ a ∈ s.code, 0 ≤ a
  seen : ∀ a ∈ s.seen, a ∈ s.code
  seeds : ∀ a ∈ seeds, 0 ≤ a → a < size → a ∈ s.code ∨ a ∈ s.pending
  targets : ∀ a i t, s.code.get? a = some i → i.target = some t → 0 ≤ t → t < size → t ∈ s.code ∨ t ∈ s.pending

variable {seeds : List ℤ} {s s' : State}

theorem sound_start : Sound decode size seeds (start seeds) where
  decoded a i h := by cases h
  inside a h := absurd h (Dict.not_mem_empty a)
  seen a h := absurd h List.not_mem_nil
  seeds a ha _ _ := .inr (List.mem_reverse.mpr ha)
  targets a i t h := by cases h

theorem followed_listing (decode : Decoder) (size : ℤ) (s : State) (seed : ℤ) (pending : List ℤ) :
    Followed decode seed (min (seed + window) size) s.code pending
      (follow s.code pending (listing decode size seed)) (runsOut s.code seed (listing decode size seed)) :=
  followed_disasm _ _ _ _ _

theorem State.lt_of_not_skips {seed : ℤ} (h : ¬ s.Skips size seed) : seed < min (seed + window) size := by
  simp only [State.Skips, not_or, not_not] at h
  have hlt := h.2.2.2
  rw [window]
  omega

/-- A decoded instruction stays as it is. -/
theorem step_kept (hstep : step decode size s = some s') {a : ℤ} {i : Insn} (h : s.code.get? a = some i) :
    s'.code.get? a = some i := by
  obtain ⟨seed, pending, -, ⟨-, rfl⟩ | ⟨-, rfl⟩⟩ := step_cases hstep
  · exact h
  · exact (followed_listing decode size s seed pending).kept a i h

theorem step_mem (hstep : step decode size s = some s') {a : ℤ} (h : a ∈ s.code) : a ∈ s'.code := by
  obtain ⟨i, hi⟩ := Dict.mem_iff_get?_eq_some.mp h
  exact Dict.mem_iff_get?_eq_some.mpr ⟨i, step_kept hstep hi⟩

/-- An address of the image that waits is decoded when it comes first. -/
theorem Sound.waits (h : Sound decode size seeds s) (hstep : Monitor.step decode size s = some s') {a : ℤ}
    (hle : 0 ≤ a) (hlt : a < size) (ha : a ∈ s.code ∨ a ∈ s.pending) : a ∈ s'.code ∨ a ∈ s'.pending := by
  rcases ha with ha | ha
  · exact .inl (step_mem hstep ha)
  · obtain ⟨seed, pending, hpending, hcase⟩ := step_cases hstep
    rw [hpending, List.mem_cons] at ha
    rcases hcase with ⟨hskip, rfl⟩ | ⟨hskip, rfl⟩
    · rcases ha with rfl | ha
      · rcases hskip with hcode | hseen | hout
        · exact .inl hcode
        · exact .inl (h.seen a hseen)
        · exact absurd ⟨hle, hlt⟩ hout
      · exact .inr ha
    · have hf := followed_listing decode size s seed pending
      rcases ha with rfl | ha
      · exact .inl (hf.begins (State.lt_of_not_skips hskip))
      · exact .inr (hf.waits a ha)

theorem Sound.step (h : Sound decode size seeds s) (hstep : Monitor.step decode size s = some s') :
    Sound decode size seeds s' := by
  obtain ⟨seed, pending, hpending, ⟨hskip, hs'⟩ | ⟨hskip, hs'⟩⟩ := step_cases hstep
  · have hcode : s'.code = s.code := by rw [hs']
    refine ⟨by rw [hcode]; exact h.decoded, by rw [hcode]; exact h.inside, ?_,
      fun a ha hle hlt ↦ h.waits hstep hle hlt (h.seeds a ha hle hlt), fun a i t ha ht hle hlt ↦ ?_⟩
    · rw [hs']
      exact h.seen
    · rw [hcode] at ha
      exact h.waits hstep hle hlt (h.targets a i t ha ht hle hlt)
  · have hf := followed_listing decode size s seed pending
    have hlt := State.lt_of_not_skips hskip
    simp only [State.Skips, not_or, not_not] at hskip
    have hnew : ∀ a i, s'.code.get? a = some i → s.code.get? a = some i ∨ seed ≤ a ∧ i = decode a := by
      intro a i ha
      rw [hs'] at ha
      exact (hf.new a i ha).imp_right fun hrun ↦ ⟨hrun.1, hrun.2.2⟩
    have hdecoded : ∀ a i, s'.code.get? a = some i → i = decode a := by
      intro a i ha
      rcases hnew a i ha with ha | ⟨-, hi⟩
      · exact h.decoded a i ha
      · exact hi
    refine ⟨hdecoded, fun a ha ↦ ?_, fun a ha ↦ ?_, fun a ha hle hsize ↦ h.waits hstep hle hsize (h.seeds a ha hle hsize),
      fun a i t ha ht hle hsize ↦ ?_⟩
    · obtain ⟨i, hi⟩ := Dict.mem_iff_get?_eq_some.mp ha
      rcases hnew a i hi with hi | ⟨hle, -⟩
      · exact h.inside a (Dict.mem_iff_get?_eq_some.mpr ⟨i, hi⟩)
      · exact hskip.2.2.1.trans hle
    · rw [hs', List.mem_cons] at ha
      rcases ha with rfl | ha
      · rw [hs']
        exact hf.begins hlt
      · exact step_mem hstep (h.seen a ha)
    · have hmem : a ∈ (follow s.code pending (listing decode size seed)).1 := by
        rw [hs'] at ha
        exact Dict.mem_iff_get?_eq_some.mpr ⟨i, ha⟩
      rcases hf.target a hmem with hold | htarget
      · obtain ⟨j, hj⟩ := Dict.mem_iff_get?_eq_some.mp hold
        obtain rfl := Option.some.inj ((step_kept hstep hj).symm.trans ha)
        exact h.waits hstep hle hsize (h.targets a j t hj ht hle hsize)
      · rw [hs']
        exact htarget t (hdecoded a i ha ▸ ht)

theorem sound_reached (h : Reached decode size seeds s) : Sound decode size seeds s := by
  induction h with
  | refl => exact sound_start
  | tail _ hstep ih => exact ih.step hstep

/-- A newly decoded instruction is followed by a decoded one, unless the window cuts its run. -/
theorem Sound.falls (h : Sound decode size seeds s) (hstep : Monitor.step decode size s = some s') {a : ℤ} {i : Insn}
    (ha : s'.code.get? a = some i) (hgo : ¬ i.Terminates) (hlt : a + i.length < size) :
    s.code.get? a = some i ∨ a + i.length ∈ s'.code ∨ s.cut decode size = some (a + i.length) := by
  obtain rfl := (h.step hstep).decoded a i ha
  obtain ⟨seed, pending, hpending, ⟨-, rfl⟩ | ⟨hskip, rfl⟩⟩ := step_cases hstep
  · exact .inl ha
  · have hf := followed_listing decode size s seed pending
    rcases hf.falls a (Dict.mem_iff_get?_eq_some.mpr ⟨_, ha⟩) with hold | hterm | hnext | hout
    · obtain ⟨j, hj⟩ := Dict.mem_iff_get?_eq_some.mp hold
      rw [← h.decoded a j hj]
      exact .inl hj
    · exact absurd hterm hgo
    · exact .inr (.inl hnext)
    · refine .inr (.inr ?_)
      rw [State.cut, hpending]
      dsimp only
      rw [if_neg hskip, hout, Option.filter_some, if_pos (by simpa using hlt)]

/-- A turn whose run the window cuts at `e`. -/
theorem Sound.cut (h : Sound decode size seeds s) {e : ℤ} (hcut : s.cut decode size = some e) :
    ∃ seed pending s', s.pending = seed :: pending ∧ Monitor.step decode size s = some s' ∧
      (∃ a i, s'.code.get? a = some i ∧ ¬ i.Terminates ∧ a + i.length = e) ∧
      (e ∈ s'.code → e ∈ s.code) ∧
      (e ∈ s'.pending → e ∈ s.pending ∨ ∃ x ∈ listing decode size seed, x.2.target = some e) ∧
      ∀ x ∈ listing decode size seed, x.1 ∈ s'.code := by
  unfold State.cut at hcut
  split at hcut
  · cases hcut
  · rename_i seed pending hpending
    split at hcut
    · cases hcut
    · rename_i hskip
      obtain ⟨hout, -⟩ := Option.filter_eq_some_iff.mp hcut
      have hf := followed_listing decode size s seed pending
      have hstep := @step_follow decode size s seed pending hpending hskip
      obtain ⟨hstop, hlast⟩ := hf.cut e hout
      obtain ⟨a, ha, hgo, he⟩ := hlast (State.lt_of_not_skips hskip)
      obtain ⟨i, hi⟩ := Dict.mem_iff_get?_eq_some.mp ha
      obtain rfl := (h.step hstep).decoded a i hi
      refine ⟨seed, pending, _, hpending, hstep, ⟨a, _, hi, hgo, he⟩, fun hmem ↦ ?_, fun hmem ↦ ?_, hf.listed e hout⟩
      · obtain ⟨j, hj⟩ := Dict.mem_iff_get?_eq_some.mp hmem
        rcases hf.new e j hj with hold | ⟨-, hlt, -⟩
        · exact Dict.mem_iff_get?_eq_some.mpr ⟨j, hold⟩
        · exact absurd hlt (not_lt.mpr hstop)
      · exact (hf.origin e hmem).imp_left fun hwaits ↦ hpending ▸ List.mem_cons_of_mem seed hwaits

theorem cut_lt {e : ℤ} (h : s.cut decode size = some e) : e < size := by
  unfold State.cut at h
  split at h
  · cases h
  · split at h
    · cases h
    · simpa using (Option.filter_eq_some_iff.mp h).2

theorem disasm_decoded {start stop : ℤ} : ∀ x ∈ disasm decode start stop, x.2 = decode x.1 := by
  induction start using disasm.induct decode stop with
  | case1 start hlt ih =>
    rw [disasm_of_lt hlt]
    exact List.forall_mem_cons.mpr ⟨rfl, ih⟩
  | case2 start hle =>
    rw [disasm_of_le (not_lt.mp hle)]
    exact fun x hx ↦ absurd hx List.not_mem_nil

theorem Sound.discovered (h : Sound decode size seeds s)
    (hfalls : ∀ a i, s.code.get? a = some i → ¬ i.Terminates → a + i.length < size →
      a + i.length ∈ s.code ∨ a + i.length ∈ s.pending) : Discovered decode size seeds s.code s.pending :=
  ⟨h.decoded, h.seeds, h.targets, hfalls⟩

theorem Sound.next_nonneg (h : Sound decode size seeds s) {a : ℤ} {i : Insn} (ha : s.code.get? a = some i) :
    0 ≤ a + i.length := by
  have hle := h.inside a (Dict.mem_iff_get?_eq_some.mpr ⟨i, ha⟩)
  have hpos := i.length_pos
  omega

/-- A turn that is covered keeps what has been discovered. -/
theorem Discovered.step (hd : Discovered decode size seeds s.code s.pending) (h : Sound decode size seeds s)
    (hcover : Covered decode size s) (hstep : Monitor.step decode size s = some s') :
    Discovered decode size seeds s'.code s'.pending := by
  have h' := h.step hstep
  refine h'.discovered fun a i ha hgo hlt ↦ ?_
  have hle := h'.next_nonneg ha
  rcases h.falls hstep ha hgo hlt with hold | hnext | hcut
  · exact h.waits hstep hle hlt (hd.falls a i hold hgo hlt)
  · exact .inl hnext
  · rcases hcover _ hcut with hcode | hpending | ⟨seed, hseed, x, hx, ht⟩
    · exact h.waits hstep hle hlt (.inl hcode)
    · exact h.waits hstep hle hlt (.inr hpending)
    · -- the target of an instruction that was decoded in this turn
      obtain ⟨seed', pending, s'', hp, hstep', -, -, -, hall⟩ := h.cut hcut
      rw [hp, List.head?_cons, Option.mem_some_iff] at hseed
      subst hseed
      rw [Option.some.inj (hstep.symm.trans hstep')] at h' ⊢
      obtain ⟨j, hj⟩ := Dict.mem_iff_get?_eq_some.mp (hall x hx)
      refine h'.targets x.1 j _ hj ?_ hle hlt
      rw [h'.decoded x.1 j hj, ← disasm_decoded x hx, ht]

/-- What a cut leaves behind shows whether the turn was covered. -/
theorem Sound.covered (h : Sound decode size seeds s)
    (hd : ∀ s', Monitor.step decode size s = some s' → Discovered decode size seeds s'.code s'.pending) :
    Covered decode size s := by
  intro e hcut
  obtain ⟨seed, pending, s', hp, hstep, ⟨a, i, ha, hgo, rfl⟩, hcode, hpending, -⟩ := h.cut hcut
  rcases (hd s' hstep).falls a i ha hgo (cut_lt hcut) with hmem | hmem
  · exact .inl (hcode hmem)
  · refine .inr ((hpending hmem).imp_right fun hx ↦ ⟨seed, ?_, hx⟩)
    rw [hp]
    rfl

end Discovery

section Runs

variable {seeds : List ℤ} {s t : State}

theorem discovered_reached (h : ∀ s, Reached decode size seeds s → Covered decode size s)
    (hr : Reached decode size seeds s) : Discovered decode size seeds s.code s.pending := by
  induction hr with
  | refl => exact sound_start.discovered fun a i ha ↦ by cases ha
  | tail hr hstep ih => exact ih.step (sound_reached hr) (h _ hr) hstep

/-- Every next instruction of the image is decoded, or waits, or is where a run was cut. -/
theorem falls_reached (hr : Reached decode size seeds s) : ∀ a i, s.code.get? a = some i → ¬ i.Terminates →
    a + i.length < size → (a + i.length ∈ s.code ∨ a + i.length ∈ s.pending) ∨
      ∃ t, Reached decode size seeds t ∧ t.cut decode size = some (a + i.length) := by
  induction hr with
  | refl =>
    intro a i ha
    cases ha
  | @tail s s' hr hstep ih =>
    intro a i ha hgo hlt
    have hsound := sound_reached hr
    have hle := (hsound.step hstep).next_nonneg ha
    rcases hsound.falls hstep ha hgo hlt with hold | hnext | hcut
    · exact (ih a i hold hgo hlt).imp_left (hsound.waits hstep hle hlt)
    · exact .inl (.inl hnext)
    · exact .inr ⟨s, hr, hcut⟩

theorem run_mem (hrun : Relation.ReflTransGen (fun s s' ↦ step decode size s = some s') s t) {a : ℤ}
    (ha : a ∈ s.code) : a ∈ t.code := by
  induction hrun with
  | refl => exact ha
  | tail _ hstep ih => exact step_mem hstep ih

/-- From every state that is reached the loop ends in the map that `trace` returns. -/
theorem traceLoop_eq_trace (hr : Reached decode size seeds s) :
    traceLoop decode size s = trace decode size seeds := by
  induction hr with
  | refl => rfl
  | tail _ hstep ih => rw [← ih, traceLoop_step decode size hstep]

theorem mem_trace (hr : Reached decode size seeds s) {a : ℤ} (ha : a ∈ s.code) : a ∈ trace decode size seeds := by
  obtain ⟨t, -, hrun, -, htrace⟩ := traceLoop_reached hr
  rw [← traceLoop_eq_trace hr, htrace]
  exact run_mem hrun ha

/-- The last state holds what is returned, and nothing waits there. -/
theorem exists_last (decode : Decoder) (size : ℤ) (seeds : List ℤ) :
    ∃ t, Reached decode size seeds t ∧ t.pending = [] ∧ trace decode size seeds = t.code := by
  obtain ⟨t, ht, -, hpending, htrace⟩ := @traceLoop_reached decode size seeds _ .refl
  exact ⟨t, ht, hpending, htrace⟩

/-- Code discovery is closed in every state just when each cut of the window is covered, and in the end just when
each address at which the window cuts a run is decoded by some run. -/
theorem trace_discovers (decode : Decoder) (size : ℤ) (seeds : List ℤ) :
    ((∀ s, Reached decode size seeds s → Covered decode size s) ↔
      ∀ s, Reached decode size seeds s → Discovered decode size seeds s.code s.pending) ∧
    ((∀ s, Reached decode size seeds s → Covered decode size s) →
      Discovered decode size seeds (trace decode size seeds) []) ∧
    (Discovered decode size seeds (trace decode size seeds) [] ↔
      ∀ s, Reached decode size seeds s → ∀ e, s.cut decode size = some e →
        ∃ t, Reached decode size seeds t ∧ e ∈ t.code) := by
  obtain ⟨last, hlast, hpending, htrace⟩ := exists_last decode size seeds
  refine ⟨⟨fun h s hs ↦ discovered_reached h hs, fun h s hs ↦ ?_⟩, fun h ↦ ?_, fun h s hs e hcut ↦ ?_, fun h ↦ ?_⟩
  · exact (sound_reached hs).covered fun s' hstep ↦ h s' (hs.tail hstep)
  · have hd := discovered_reached h hlast
    rw [hpending, ← htrace] at hd
    exact hd
  · obtain ⟨seed, pending, s', -, hstep, ⟨a, i, ha, hgo, rfl⟩, -⟩ := (sound_reached hs).cut hcut
    have hs' := hs.tail hstep
    have hmem := mem_trace hs' (Dict.mem_iff_get?_eq_some.mpr ⟨i, ha⟩)
    obtain ⟨j, hj⟩ := Dict.mem_iff_get?_eq_some.mp hmem
    have hij : j = i := (h.decoded a j hj).trans ((sound_reached hs').decoded a i ha).symm
    subst hij
    refine ⟨last, hlast, ?_⟩
    rw [← htrace]
    exact (h.falls a j hj hgo (cut_lt hcut)).resolve_right List.not_mem_nil
  · have hd : Discovered decode size seeds last.code last.pending := by
      refine (sound_reached hlast).discovered fun a i ha hgo hlt ↦ ?_
      rcases falls_reached hlast a i ha hgo hlt with hmem | ⟨s, hs, hcut⟩
      · exact hmem
      · obtain ⟨t, ht, hmem⟩ := h s hs _ hcut
        refine .inl ?_
        rw [← htrace]
        exact mem_trace ht hmem
    rw [hpending, ← htrace] at hd
    exact hd

end Runs

section Example

/-- An image of zero bytes: every instruction is `addb rh0,#0x0`. -/
def zeros : Decoder := fun _ ↦ ⟨2, "addb", ['r', 'h', '0', ',', '#', '0', 'x', '0'], Nat.zero_lt_two⟩

theorem target_zeros (a : ℤ) : (zeros a).target = none := rfl

theorem not_terminates_zeros (a : ℤ) : ¬ (zeros a).Terminates := by
  rw [Insn.Terminates]
  simp only [zeros]
  decide

/-- A single seed from which no other address is found. -/
theorem trace_single {seed : ℤ} {next : Dict ℤ Insn × List ℤ} (hskip : ¬ (start [seed]).Skips size seed)
    (hnext : follow ∅ [] (listing decode size seed) = next) (hnone : next.2 = []) :
    trace decode size [seed] = next.1 := by
  have hstep : step decode size (start [seed]) = some ⟨next.1, next.2, [seed]⟩ := by
    rw [← hnext]
    exact step_follow rfl hskip
  rw [trace, traceLoop_step decode size hstep]
  exact traceLoop_done decode size hnone

theorem trace_zeros : ∃ next, trace zeros 0x4000 [0] = next.1 ∧
    Followed zeros 0 (min (0 + window) 0x4000) ∅ [] next (runsOut ∅ 0 (listing zeros 0x4000 0)) := by
  obtain ⟨next, hnext⟩ : ∃ next, follow ∅ [] (listing zeros 0x4000 0) = next := ⟨_, rfl⟩
  have hf := followed_listing zeros 0x4000 (start [0]) 0 []
  have hstart : (start [0]).code = ∅ := rfl
  rw [hstart, hnext] at hf
  have hnone : next.2 = [] := by
    refine List.eq_nil_iff_forall_not_mem.mpr fun t ht ↦ ?_
    rcases hf.origin t ht with h | ⟨x, hx, h⟩
    · cases h
    · rw [disasm_decoded x hx, target_zeros] at h
      cases h
  have hskip : ¬ (start [0]).Skips 0x4000 0 := by
    rw [State.Skips, not_or, not_or, not_not]
    exact ⟨Dict.not_mem_empty 0, List.not_mem_nil, by decide⟩
  exact ⟨next, trace_single hskip hnext hnone, hf⟩

/-- The instruction at `0x400` is missing, although the one before it falls through. -/
theorem zeros_not_discovered : ¬ Discovered zeros 0x4000 [0] (trace zeros 0x4000 [0]) [] := by
  intro h
  have hmem : ∀ k : ℕ, 4 * (k : ℤ) < 0x4000 → 4 * (k : ℤ) ∈ trace zeros 0x4000 [0] := by
    intro k hk
    induction k with
    | zero => exact (h.seeds 0 List.mem_cons_self le_rfl (by decide)).resolve_right List.not_mem_nil
    | succ k ih =>
      obtain ⟨i, hi⟩ := Dict.mem_iff_get?_eq_some.mp (ih (by omega))
      obtain rfl := h.decoded _ i hi
      have hnext : 4 * (k : ℤ) + (zeros (4 * k)).length = 4 * (k + 1 : ℕ) := by
        push_cast
        rfl
      have hfalls := h.falls _ _ hi (not_terminates_zeros _) (by rw [hnext]; exact hk)
      rw [hnext] at hfalls
      exact hfalls.resolve_right List.not_mem_nil
  have hend := hmem 0x100 (by decide)
  obtain ⟨next, htrace, hf⟩ := trace_zeros
  rw [htrace] at hend
  obtain ⟨i, hi⟩ := Dict.mem_iff_get?_eq_some.mp hend
  rcases hf.new _ i hi with hold | ⟨-, hlt, -⟩
  · cases hold
  · exact absurd hlt (by decide)

end Example

end S8000.Monitor
