import S8000.Restore.Planting

namespace S8000.Restore

open Foundation Foundation.Bytes Foundation.Numerals Foundation.Namespace V7
open Dump (Text isDot)

variable {κ : Type} [DecidableEq κ] {host : Host} {look : κ → Inode} {place : Tag κ → ℕ} {made made' : List (Made κ)}
  {gone : List (List Text)} {st : Replay} {e : Entry} {es : List Entry} {m : Made κ} {q p : List Text} {n : Text} {k : κ}

/-- The entry makes the name `m` beside those that are there. -/
inductive Plants (host : Host) (look : κ → Inode) (made : List (Made κ)) (e : Entry) : Made κ → Prop
  | directory {q : List Text} {n : Text} : e.kind = 'd' → MkdirPath e.path q n → Plants host look made e ⟨q ++ [n], none⟩
  | file {p : List Text} {k : κ} {data : List Byte} : e.kind = 'f' → components e.path = p →
      host.files e.aux = some data → look k = e.made host (.regular data) → .object k ∉ tags made [] →
      Plants host look made e ⟨p, some k⟩
  | device {p : List Text} {k : κ} {block : Bool} : e.kind = (if block then 'b' else 'c') → components e.path = p →
      look k = e.made host (.special block (BitVec.ofNat 16 (strtoul 0 e.aux))) → .object k ∉ tags made [] →
      Plants host look made e ⟨p, some k⟩
  | link {p : List Text} {k : κ} : e.kind = 'h' → components e.path = p → ⟨components e.aux, some k⟩ ∈ made →
      Plants host look made e ⟨p, some k⟩

section Link

theorem step_link_room (hroomy : Roomy host) (he : e.kind = 'h') {t d : ℕ} {ss : List Slot}
    (hold : st.fs.namei e.aux = .ok t) (hpath : components e.path = q ++ [n]) (hq : st.fs.walk rootIno q = .ok d)
    (hss : st.fs.slots? d = some ss) (hn : lookup n ss = none) :
    step host st e = ⟨Fs.modify (st.fs.refresh.modify d fun p ↦
      { p with content := .directory (enterSlot n t ss), mtime := now host st.fs.refresh }) t
        fun p ↦ { p with nlink := p.nlink + 1 }, st.failures⟩ := by
  have hss' : st.fs.refresh.slots? d = some ss := hss
  rcases wdir_cases host n t hss' with hw | ⟨hfull, -⟩
  · have hlink := v7fsLink_of_room ((Fs.namei_refresh st.fs e.aux).trans hold)
      (nameiCreate_of_walk hpath hq hss hn) hw
    have hperform : perform host st.fs e = v7fsLink host st.fs e.aux e.path := by
      rw [perform, he]
      rfl
    rw [step, hperform, hlink]
    simp [he, isFailure]
  · exact absurd hroomy hfull

end Link

/-- One entry of the manifest makes one name. -/
theorem V7.Planted.plant (hroomy : Roomy host) (hspace : Spacious host) (h : Planted place look made [] st.fs)
    (ho : Orderly made []) (hf : Fits made m q n) (hp : Plants host look made e m) :
    ∃ place', Planted place' look (made ++ [m]) [] (step host st e).fs ∧
      (step host st e).failures = st.failures ∧ ∀ t ∈ tags made [], place' t = place t := by
  have hwalk := h.walk ho hf.parent
  have hss := h.dir hf.parent
  have hn : lookup n (slotsOf place made [] q) = none := hf.lookup ho
  have hgrown : ∀ {content : Option Content}, (∃ i, Makes host e st (place (.directory q)) n
      (slotsOf place made [] q) content i) → m.tag ∉ tags made [] → (m.key = none → content = none) →
      (∀ k, m.key = some k → ∃ c, content = some c ∧ look k = e.made host c) →
      ∃ place', Planted place' look (made ++ [m]) [] (step host st e).fs ∧
        (step host st e).failures = st.failures ∧ ∀ t ∈ tags made [], place' t = place t := by
    rintro content ⟨i, hmakes⟩ htag hdir hobj
    refine ⟨_, h.grow ho hf htag hmakes.making (fun hkey ↦ hmakes.directory (hdir hkey)) fun k hkey ↦ ?_,
      hmakes.failures, fun t ht ↦ Function.update_of_ne (fun heq : t = m.tag ↦ htag (heq ▸ ht)) _ _⟩
    obtain ⟨c, hc, hlook⟩ := hobj k hkey
    rw [hmakes.object hc, hlook]
    rfl
  have hpath := hf.path
  cases hp with
  | @directory q' n' he hmk =>
    obtain ⟨rfl, hl⟩ := List.append_inj' hpath rfl
    obtain rfl := List.singleton_inj.mp hl
    refine hgrown (step_mkdir hroomy he hmk hwalk hss hn) (fun htag ↦ ?_) (fun _ ↦ rfl) fun k hk ↦ by cases hk
    rcases mem_tags.mp htag with htag | ⟨m', hm', -, htag⟩
    · simp [Made.tag] at htag
    · obtain ⟨-, hpath'⟩ := tag_eq_directory.mp htag
      exact hf.fresh (List.mem_map.mpr ⟨m', hm', hpath'⟩)
  | @file p k data he hself hdata hlook hnew =>
    refine hgrown (step_copy hroomy hspace he (hself.trans hpath) hwalk hss hn hdata) hnew (fun hk ↦ by cases hk) fun k' hk ↦ ?_
    obtain rfl := Option.some.inj hk
    exact ⟨_, rfl, hlook⟩
  | @device p k block he hself hlook hnew =>
    refine hgrown (step_mknod hroomy he (hself.trans hpath) hwalk hss hn) hnew (fun hk ↦ by cases hk) fun k' hk ↦ ?_
    obtain rfl := Option.some.inj hk
    exact ⟨_, rfl, hlook⟩
  | @link p k he hself hold =>
    have hk : .object k ∈ tags made [] := mem_tags.mpr (.inr ⟨_, hold, List.not_mem_nil, rfl⟩)
    have hnamei : st.fs.namei e.aux = .ok (place (.object k)) := h.walk_name ho hold List.not_mem_nil
    rw [step_link_room hroomy he hnamei (hself.trans hpath) hwalk hss hn]
    exact ⟨place, h.refresh.alias hf rfl hk _, rfl, fun _ _ ↦ rfl⟩

/-- The entries make the names of `made'` beyond those of `made`, one after the other. -/
inductive Sown (host : Host) (look : κ → Inode) : List (Made κ) → List Entry → List (Made κ) → Prop
  | nil (made : List (Made κ)) : Sown host look made [] made
  | root {made made' : List (Made κ)} {e : Entry} {es : List Entry} : e.kind = 'd' → e.path = ['/'] →
      Sown host look made es made' → Sown host look made (e :: es) made'
  | cons {made made' : List (Made κ)} {e : Entry} {es : List Entry} {m : Made κ} {q : List Text} {n : Text} :
      Fits made m q n → Plants host look made e m → Sown host look (made ++ [m]) es made' →
      Sown host look made (e :: es) made'

variable (host) in
/-- The metadata of a directory is no matter for the names. -/
theorem V7.Planted.restamp (h : Planted place look made gone st.fs) (ho : Orderly made gone)
    (hp : components e.path = p) (hdir : .directory p ∈ tags made gone) :
    Planted place look made gone (setMetadata host e st).fs ∧
      (setMetadata host e st).failures = st.failures := by
  have hnamei : st.fs.namei e.path = .ok (place (.directory p)) := by
    rw [Fs.namei, hp]
    exact h.walk ho hdir
  obtain ⟨hget, hfailures⟩ := @setMetadata_of_ok host e st _ hnamei
  refine ⟨h.congr slots?_setMetadata (fun i hi ↦ ?_) fun k hk ↦ ?_, hfailures⟩
  · rw [Dict.mem_def, hget] at hi
    rw [Dict.mem_def]
    split at hi
    · simpa using hi
    · exact hi
  · rw [hget, if_neg fun heq ↦ (by cases h.inj hdir hk heq)]

theorem step_root (he : e.kind = 'd') (hroot : e.path = ['/']) : step host st e = setMetadata host e st := by
  have hperform : perform host st.fs e = (st.fs, none) := by
    rw [perform, he]
    exact if_pos hroot
  rw [step, hperform]
  simp [he, isFailure]

omit [DecidableEq κ] in
theorem Sown.orderly (hs : Sown host look made es made') (ho : Orderly made []) : Orderly made' [] := by
  induction hs with
  | nil => exact ho
  | root _ _ _ ih => exact ih ho
  | cons hf _ _ ih => exact ih (ho.append hf)

/-- A manifest that sows makes its names, and nothing fails. -/
theorem Sown.run (hroomy : Roomy host) (hspace : Spacious host) (hs : Sown host look made es made')
    (h : Planted place look made [] st.fs) (ho : Orderly made []) :
    ∃ place', Planted place' look made' [] (es.foldl (step host) st).fs ∧
      (es.foldl (step host) st).failures = st.failures ∧ ∀ t ∈ tags made [], place' t = place t := by
  induction hs generalizing place st with
  | nil => exact ⟨place, h, rfl, fun _ _ ↦ rfl⟩
  | root he hroot _ ih =>
    obtain ⟨hset, hfailures⟩ := h.restamp host ho (by rw [hroot]; rfl) List.mem_cons_self
    rw [List.foldl_cons, step_root he hroot]
    obtain ⟨place', hp, hf, hsame⟩ := ih hset ho
    exact ⟨place', hp, hf.trans hfailures, hsame⟩
  | @cons made made' e es m q n hf hplants _ ih =>
    obtain ⟨place₁, hp₁, hf₁, hsame₁⟩ := h.plant hroomy hspace ho hf hplants
    rw [List.foldl_cons]
    obtain ⟨place₂, hp₂, hf₂, hsame₂⟩ := ih hp₁ (ho.append hf)
    refine ⟨place₂, hp₂, hf₂.trans hf₁, fun t ht ↦ ?_⟩
    rw [hsame₂ t (tags_append made m ▸ List.mem_append_left _ ht), hsame₁ t ht]

section Clearing

variable (host)

theorem step_unlink (he : e.kind = 'u') {d t : ℕ} {ss : List Slot} (hpath : components e.path = q ++ [n])
    (hq : st.fs.walk rootIno q = .ok d) (hss : st.fs.slots? d = some ss) (hn : lookup n ss = some t) :
    step host st e = ⟨dropLink (st.fs.refresh.modify d fun p ↦
      { p with content := .directory (clearSlot n ss), mtime := now host st.fs.refresh }) t, st.failures⟩ := by
  have hq' : st.fs.refresh.walk rootIno q = .ok d := (Fs.walk_congr (st.fs.slots?_refresh ·) _ _).trans hq
  have hss' : st.fs.refresh.slots? d = some ss := hss
  have hfound := Fs.nameiDelete_found hpath hq' ((Fs.child_of_slots hss').trans hn)
  have hnone : (v7fsUnlink host st.fs e.path).2 = none := by
    rw [v7fsUnlink]
    simp only [hfound]
  have hperform : perform host st.fs e = v7fsUnlink host st.fs e.path := by
    rw [perform, he]
    rfl
  rw [step, hperform, hnone, v7fsUnlink_of_found hss hfound]
  simp [he, isFailure]

theorem V7.Planted.unlink (h : Planted place look made gone st.fs) (ho : Orderly made gone) (hm : m ∈ made)
    (hlive : m.path ∉ gone) (hkey : m.key = some k) (hone : ∀ m' ∈ made, m'.key = some k → m' = m)
    (he : e.kind = 'u') (hpath : components e.path = m.path) :
    Planted place look made (m.path :: gone) (step host st e).fs ∧
      (step host st e).failures = st.failures := by
  obtain ⟨q, n, hself, hn, hq⟩ := ho.named hm
  have hchild := h.child ho hm hself hlive hn hq
  rw [Fs.child_of_slots (h.dir hq), tag_eq_object.mpr hkey] at hchild
  rw [step_unlink host he (hpath.trans hself) (h.walk ho hq) (h.dir hq) hchild]
  exact ⟨h.refresh.drop ho hm hself hlive hkey hone hn hq _, rfl⟩

/-- Names that are all an object has are cleared one after the other. -/
theorem V7.Planted.clear (h : Planted place look made gone st.fs) (ho : Orderly made gone) {ms : List (Made κ)}
    (hes : List.Forall₂ (fun e m ↦ e.kind = 'u' ∧ components e.path = m.path) es ms) (hnodup : (ms.map Made.path).Nodup)
    (hms : ∀ m ∈ ms, m ∈ made ∧ m.path ∉ gone ∧ ∃ k, m.key = some k ∧ ∀ m' ∈ made, m'.key = some k → m' = m) :
    ∃ gone', (∀ p, p ∈ gone' ↔ p ∈ ms.map Made.path ∨ p ∈ gone) ∧ Orderly made gone' ∧
      Planted place look made gone' (es.foldl (step host) st).fs ∧ (es.foldl (step host) st).failures = st.failures := by
  induction hes generalizing st gone with
  | nil => exact ⟨gone, fun p ↦ by simp, ho, h, rfl⟩
  | @cons e m es ms he _ ih =>
    obtain ⟨⟨hm, hlive, k, hkey, hone⟩, hrest⟩ := List.forall_mem_cons.mp hms
    obtain ⟨hnew, hnodup⟩ := List.nodup_cons.mp hnodup
    obtain ⟨hdrop, hfailures⟩ := h.unlink host ho hm hlive hkey hone he.1 he.2
    obtain ⟨gone', hgone, ho', hp, hf⟩ := ih hdrop (ho.cons hm hkey hone) hnodup fun m' hm' ↦ by
      obtain ⟨hmem, hlive', hkey'⟩ := hrest m' hm'
      refine ⟨hmem, fun hgone ↦ ?_, hkey'⟩
      rcases List.mem_cons.mp hgone with heq | hgone
      · exact hnew (heq ▸ List.mem_map_of_mem hm')
      · exact hlive' hgone
    refine ⟨gone', fun p ↦ ?_, ho', hp, hf.trans hfailures⟩
    rw [hgone, List.map_cons, List.mem_cons, List.mem_cons]
    tauto

/-- The second pass leaves the names alone. -/
theorem V7.Planted.reset (h : Planted place look made gone st.fs) (ho : Orderly made gone)
    (hes : ∀ e ∈ es, e.kind = 'd' → .directory (components e.path) ∈ tags made gone) :
    Planted place look made gone (es.foldl (resetDirectory host) st).fs ∧
      (es.foldl (resetDirectory host) st).failures = st.failures := by
  induction es generalizing st with
  | nil => exact ⟨h, rfl⟩
  | cons e es ih =>
    obtain ⟨he, hes⟩ := List.forall_mem_cons.mp hes
    rw [List.foldl_cons]
    by_cases hd : e.kind = 'd'
    · obtain ⟨hset, hfailures⟩ := h.restamp host ho rfl (he hd)
      rw [resetDirectory, if_pos hd]
      obtain ⟨hp, hf⟩ := ih hset hes
      exact ⟨hp, hf.trans hfailures⟩
    · rw [resetDirectory, if_neg hd]
      exact ih h hes

end Clearing

end S8000.Restore
