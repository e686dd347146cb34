import S8000.Serial.MonitorLoad
import S8000.Foundation.Chunks

namespace S8000.Serial.Download

open Foundation Foundation.Bytes Foundation.Chunks Foundation.Traversal

section Exchange

variable {α : Type}

/-- Each item is offered until a status accepts it: the items offered, with their statuses. -/
def exchange : List α → List Status → List (α × Status)
  | [], _ => []
  | _ :: _, [] => []
  | a :: l, .retransmit :: ss => (a, .retransmit) :: exchange (a :: l) ss
  | a :: l, .accept :: ss => (a, .accept) :: exchange l ss

/-- The items that were accepted. -/
def accepted (l : List (α × Status)) : List α := l.filterMap fun x ↦ if x.2 = .accept then some x.1 else none

theorem accepted_exchange (l : List α) (ss : List Status) :
    accepted (exchange l ss) = l.take (ss.count .accept) := by
  induction l, ss using exchange.induct with
  | case1 ss => rw [exchange, List.take_nil]; rfl
  | case2 a l => rfl
  | case3 a l ss ih =>
    rw [exchange, List.count_cons_of_ne (by decide)]
    exact ih
  | case4 a l ss ih =>
    rw [exchange, List.count_cons_self, List.take_succ_cons, ← ih]
    rfl

theorem mem_of_mem_exchange {l : List α} {ss : List Status} : ∀ x ∈ exchange l ss, x.1 ∈ l := by
  induction l, ss using exchange.induct with
  | case1 ss =>
    rw [exchange]
    exact fun x hx ↦ absurd hx List.not_mem_nil
  | case2 a l => exact fun x hx ↦ absurd hx List.not_mem_nil
  | case3 a l ss ih =>
    rw [exchange]
    exact List.forall_mem_cons.mpr ⟨List.mem_cons_self, ih⟩
  | case4 a l ss ih =>
    rw [exchange]
    exact List.forall_mem_cons.mpr ⟨List.mem_cons_self, fun x hx ↦ List.mem_cons_of_mem a (ih x hx)⟩

/-- The statuses are used in their order. -/
theorem statuses_exchange (l : List α) (ss : List Status) : (exchange l ss).map Prod.snd <+: ss := by
  induction l, ss using exchange.induct with
  | case1 ss =>
    rw [exchange]
    exact List.nil_prefix
  | case2 a l => exact List.nil_prefix
  | case3 a l ss ih =>
    rw [exchange, List.map_cons]
    exact (List.prefix_cons_inj _).mpr ih
  | case4 a l ss ih =>
    rw [exchange, List.map_cons]
    exact (List.prefix_cons_inj _).mpr ih

theorem accepted_map {β : Type} (f : α → β) (l : List (α × Status)) :
    accepted (l.map fun x ↦ (f x.1, x.2)) = (accepted l).map f := by
  rw [accepted, accepted, List.filterMap_map, List.map_filterMap]
  refine List.filterMap_congr fun x _ ↦ ?_
  rw [Function.comp_apply]
  split
  · rfl
  · rfl

end Exchange

section Run

/-- The records that are sent, each with its number, and the statuses that come back. -/
def offers (number : ℕ) (ls : List Load) (replies : List (ℕ × Status)) : List ((Load × ℕ) × Status) :=
  exchange (ls.zipIdx number) (replies.map Prod.snd)

/-- Where a run that sends `ls` ends. -/
def ending (number : ℕ) (ls : List Load) (replies : List (ℕ × Status)) (log : List (Load × Status))
    (taken : List (ℕ × Byte)) : Link × Option Failure :=
  let os := offers number ls replies
  (⟨⟨none, replies.drop os.length, [], log ++ os.map fun x ↦ (x.1.1, x.2)⟩,
    taken ++ os.map fun x ↦ (x.1.2, x.2.code)⟩,
   if ls.length ≤ (replies.map Prod.snd).count .accept then none else some .eof)

theorem ending_retransmit (number c : ℕ) (load : Load) (ls : List Load) (replies : List (ℕ × Status))
    (log : List (Load × Status)) (taken : List (ℕ × Byte)) :
    ending number (load :: ls) ((c, .retransmit) :: replies) log taken =
      ending number (load :: ls) replies (log ++ [(load, .retransmit)])
        (taken ++ [(number, Status.retransmit.code)]) := by
  have hoffers : offers number (load :: ls) ((c, .retransmit) :: replies) =
      ((load, number), .retransmit) :: offers number (load :: ls) replies := rfl
  rw [ending, ending, hoffers]
  simp only [List.map_cons, List.append_assoc, List.singleton_append, List.length_cons, List.drop_succ_cons,
    List.count_cons_of_ne (show Status.retransmit ≠ .accept by decide)]

theorem ending_accept (number c : ℕ) (load : Load) (ls : List Load) (replies : List (ℕ × Status))
    (log : List (Load × Status)) (taken : List (ℕ × Byte)) :
    ending number (load :: ls) ((c, .accept) :: replies) log taken =
      ending (number + 1) ls replies (log ++ [(load, .accept)]) (taken ++ [(number, Status.accept.code)]) := by
  have hoffers : offers number (load :: ls) ((c, .accept) :: replies) =
      ((load, number), .accept) :: offers (number + 1) ls replies := rfl
  rw [ending, ending, hoffers]
  simp only [List.map_cons, List.append_assoc, List.singleton_append, List.length_cons, List.drop_succ_cons,
    List.count_cons_self, Nat.add_le_add_iff_right]

/-- What follows the attempts at a record. -/
def proceed (fuel number : ℕ) (records : List (List Byte)) (r : Link × Option Failure) : Link × Option Failure :=
  match r.2 with
  | none => sendRecords fuel number records r.1
  | some failure => (r.1, some failure)

theorem sendRecords_cons (fuel number : ℕ) (record : List Byte) (records : List (List Byte)) (l : Link) :
    sendRecords fuel number (record :: records) l =
      proceed fuel (number + 1) records (sendRecord record number fuel l) := by
  rw [sendRecords, proceed]
  rcases sendRecord record number fuel l with ⟨l', _ | failure⟩
  · rfl
  · rfl

/-- The run of a server from the record that it is about to send, which has `attempts` turns left. -/
theorem sendRecords_run {load : Load} {ls : List Load} (hfits : ∀ l ∈ load :: ls, l.Fits)
    {replies : List (ℕ × Status)} {fuel attempts : ℕ} (hfuel : replies.length < fuel)
    (hattempts : replies.length < attempts) (number k : ℕ) (log : List (Load × Status)) (taken : List (ℕ × Byte)) :
    proceed fuel (number + 1) (ls.map wire)
        (sendRecord (wire load) number attempts ⟨⟨none, replies, List.replicate k cr, log⟩, taken⟩) =
      ending number (load :: ls) replies log taken := by
  have hload : load.Fits := hfits load List.mem_cons_self
  obtain ⟨attempts, rfl⟩ := Nat.exists_eq_succ_of_ne_zero (Nat.ne_of_gt (Nat.zero_lt_of_lt hattempts))
  induction replies generalizing load ls attempts number k log taken with
  | nil =>
    rw [sendRecord_silent hload]
    simp [proceed, ending, offers, exchange]
  | cons reply replies ih =>
    obtain ⟨c, status⟩ := reply
    rw [List.length_cons] at hfuel hattempts
    have hfuel' : replies.length < fuel := by omega
    cases status with
    | retransmit =>
      obtain ⟨attempts, rfl⟩ := Nat.exists_eq_succ_of_ne_zero (show attempts ≠ 0 by omega)
      rw [sendRecord_retransmit hload, ending_retransmit]
      exact ih hfits hfuel' number 0 _ _ hload attempts (by omega)
    | accept =>
      rw [sendRecord_accept hload, ending_accept, proceed]
      dsimp only
      cases ls with
      | nil => simp [sendRecords, ending, offers, exchange]
      | cons next ls =>
        have hrest : ∀ l ∈ next :: ls, l.Fits := fun l hl ↦ hfits l (List.mem_cons_of_mem _ hl)
        obtain ⟨fuel, rfl⟩ := Nat.exists_eq_succ_of_ne_zero (show fuel ≠ 0 by omega)
        rw [List.map_cons, sendRecords_cons]
        exact ih hrest hfuel' (number + 1) 0 _ _ (hrest next List.mem_cons_self) fuel hfuel'

/-- The command line of the `L` command. -/
structure IsLoadCommand (command : List Byte) : Prop where
  head : command.head? = some 0x4C ∨ command.head? = some 0x6C
  line : cr ∉ command

theorem sendImage_run {ls : List Load} (hne : ls ≠ []) (hfits : ∀ l ∈ ls, l.Fits) {command : List Byte}
    (hcommand : IsLoadCommand command) (crs : ℕ) {replies : List (ℕ × Status)} {fuel : ℕ}
    (hfuel : replies.length < fuel) :
    sendImage fuel (Monitor.start command crs replies) (some (ls.map wire)) = ending 0 ls replies [] [] := by
  obtain ⟨load, ls, rfl⟩ := List.exists_cons_of_ne_nil hne
  have hhead : (command ++ [cr]).head? = some 0x4C ∨ (command ++ [cr]).head? = some 0x6C := by
    cases command with
    | nil => exact hcommand.head.elim (fun h ↦ by cases h) (fun h ↦ by cases h)
    | cons b command => exact hcommand.head
  rw [sendImage, Monitor.start]
  dsimp only
  rw [readUntil_line hcommand.line]
  dsimp only
  rw [if_neg (not_not.mpr hhead)]
  -- the reply to the startup is discarded
  have hstartup : Monitor.write ⟨none, replies, List.replicate crs cr, []⟩ [cr, 0x30] =
      ⟨none, replies, List.replicate crs cr, []⟩ := rfl
  rw [hstartup, List.map_cons, sendRecords_cons]
  exact sendRecords_run hfits hfuel hfuel 0 crs [] []

end Run

section Delivery

/-- The bytes that the loads store, with their addresses. -/
def writes (ls : List Load) : List (ℕ × Byte) :=
  ls.flatMap fun load ↦ load.2.zipIdx.map fun x ↦ (load.1 + x.2, x.1)

theorem loads_fit {image : List Byte} (h : 0xF000 + image.length ≤ 0x10000) :
    ∀ load ∈ loads image 0xF000, load.Fits := by
  intro load hload
  rcases List.mem_append.mp hload with hload | hload
  · obtain ⟨k, hk, rfl⟩ := List.mem_map.mp hload
    rw [List.mem_range] at hk
    exact ⟨by dsimp only; omega, List.length_take_le _ _⟩
  · rw [List.mem_singleton.mp hload]
    exact ⟨by decide, Nat.zero_le _⟩

theorem writes_loads (image : List Byte) (address : ℕ) :
    writes (loads image address) = image.zipIdx.map fun x ↦ (address + x.2, x.1) := by
  have hpiece : ∀ k, (((image.drop (30 * k)).take 30).zipIdx.map fun x ↦ (address + 30 * k + x.2, x.1)) =
      ((image.zipIdx.map fun x ↦ (address + x.2, x.1)).drop (30 * k)).take 30 := by
    intro k
    apply List.ext_getElem?
    intro i
    simp only [List.getElem?_map, List.getElem?_zipIdx, List.getElem?_take, List.getElem?_drop]
    split
    · cases image[30 * k + i]? with
      | none => rfl
      | some b => simp [Nat.add_assoc]
    · rfl
  have hwrites : writes (loads image address) =
      ((List.range ((image.length + 29) / 30)).map fun k ↦
        ((image.zipIdx.map fun x ↦ (address + x.2, x.1)).drop (30 * k)).take 30).flatten := by
    rw [writes, loads, List.flatMap_append, List.flatMap_map, ← List.flatMap_def]
    simp only [hpiece, List.flatMap_singleton, List.zipIdx_nil, List.map_nil, List.append_nil]
  simp only [hwrites, Nat.mul_comm 30]
  rw [flatten_take_drop, List.take_of_length_le]
  rw [List.length_map, List.length_zipIdx]
  omega

theorem monitorRecord_wire {load : Load} (h : load.2.length ≤ 30) :
    ServeTape.monitorRecord load.1 load.2 = some (wire load) := if_neg (not_lt.mpr h)

theorem monitorRecord_eq_wire (load : Load) : ServeSadie.monitorRecord load.1 load.2 = wire load := by
  have hnil : hex load.2 = [] ↔ load.2 = [] := by
    rw [← List.length_eq_zero_iff, ← List.length_eq_zero_iff, hex, List.length_map, length_nibbles]
    omega
  rw [ServeSadie.monitorRecord, wire, body]
  simp only [hnil, List.cons_append, List.append_assoc]

theorem serveTape_run {image : List Byte} (h : 0xF000 + image.length ≤ 0x10000) (fuel : ℕ) (m : Monitor) :
    ServeTape.sendMonitorImage fuel m image 0xF000 = sendImage fuel m (some ((loads image 0xF000).map wire)) := by
  have hrecords : ((loads image 0xF000).mapM fun load ↦ ServeTape.monitorRecord load.1 load.2) =
      some ((loads image 0xF000).map wire) := by
    rw [mapM_eq_some, List.forall₂_map_right_iff, List.forall₂_same]
    exact fun load hload ↦ monitorRecord_wire (loads_fit h load hload).2
  rw [ServeTape.sendMonitorImage, hrecords]

theorem serveSadie_run (image : List Byte) (fuel : ℕ) (m : Monitor) :
    ServeSadie.sendMonitorImage fuel m image = sendImage fuel m (some ((loads image 0xF000).map wire)) := by
  rw [ServeSadie.sendMonitorImage]
  congr 2
  exact List.map_congr_left fun load _ ↦ monitorRecord_eq_wire load

/-- A download in which every reply answers its own record, and what the monitor accepts is the image. -/
structure Delivered (image : List Byte) (replies : List (ℕ × Status)) (r : Link × Option Failure) : Prop where
  inStep : List.Forall₂ (fun (t : ℕ × Byte) (x : Load × Status) ↦
    (loads image 0xF000)[t.1]? = some x.1 ∧ t.2 = x.2.code) r.1.taken r.1.monitor.log
  statuses : r.1.monitor.log.map Prod.snd <+: replies.map Prod.snd
  unread : r.1.monitor.outgoing = []
  accepts : accepted r.1.monitor.log = (loads image 0xF000).take ((replies.map Prod.snd).count .accept)
  ends : r.2 = if (loads image 0xF000).length ≤ (replies.map Prod.snd).count .accept then none else some .eof
  stores : r.2 = none →
    writes (accepted r.1.monitor.log) = image.zipIdx.map (fun x ↦ (0xF000 + x.2, x.1)) ∧
      ((writes (accepted r.1.monitor.log)).map Prod.fst).Nodup ∧
      ∃ pieces, accepted r.1.monitor.log = pieces ++ [(0xF000, [])] ∧ ∀ load ∈ pieces, load.2 ≠ []

theorem delivered_ending {image : List Byte} (replies : List (ℕ × Status)) :
    Delivered image replies (ending 0 (loads image 0xF000) replies [] []) := by
  have haccepts : accepted (ending 0 (loads image 0xF000) replies [] []).1.monitor.log =
      (loads image 0xF000).take ((replies.map Prod.snd).count .accept) := by
    rw [ending]
    dsimp only
    rw [List.nil_append, accepted_map, offers, accepted_exchange, List.map_take, List.zipIdx_map_fst]
  refine ⟨?_, ?_, rfl, haccepts, rfl, fun hreturned ↦ ?_⟩
  · rw [ending]
    dsimp only
    rw [List.nil_append, List.nil_append, List.forall₂_map_left_iff, List.forall₂_map_right_iff, List.forall₂_same]
    intro x hx
    have hmem := mem_of_mem_exchange x hx
    rw [List.mem_zipIdx_iff_getElem?] at hmem
    exact ⟨hmem, rfl⟩
  · rw [ending]
    dsimp only
    rw [List.nil_append, List.map_map]
    exact statuses_exchange _ _
  · have henough : (loads image 0xF000).length ≤ (replies.map Prod.snd).count .accept := by
      by_contra hless
      rw [ending, if_neg hless] at hreturned
      cases hreturned
    rw [List.take_of_length_le henough] at haccepts
    rw [haccepts, writes_loads]
    refine ⟨rfl, ?_, _, rfl, fun load hload ↦ ?_⟩
    · have hfst : (image.zipIdx.map fun x ↦ (0xF000 + x.2, x.1)).map Prod.fst =
          (List.range image.length).map (0xF000 + ·) := by
        rw [List.range_eq_range', ← List.zipIdx_map_snd, List.map_map, List.map_map]
        rfl
      rw [hfst]
      exact List.nodup_range.map (fun a b hab ↦ Nat.add_left_cancel hab)
    · obtain ⟨k, hk, rfl⟩ := List.mem_map.mp hload
      rw [List.mem_range] at hk
      refine List.ne_nil_of_length_pos ?_
      rw [List.length_take, List.length_drop]
      omega

/-- Whatever is retransmitted, both servers deliver the image record by record. -/
theorem download_delivers (image : List Byte) (himage : 0xF000 + image.length ≤ 0x10000) (command : List Byte)
    (hcommand : IsLoadCommand command) (crs : ℕ) (replies : List (ℕ × Status)) (fuel : ℕ)
    (hfuel : replies.length < fuel) :
    Delivered image replies
        (ServeTape.sendMonitorImage fuel (Monitor.start command crs replies) image 0xF000) ∧
      Delivered image replies (ServeSadie.sendMonitorImage fuel (Monitor.start command crs replies) image) := by
  have hne : loads image 0xF000 ≠ [] := List.append_ne_nil_of_right_ne_nil _ (List.cons_ne_nil _ _)
  have hrun := sendImage_run hne (loads_fit himage) hcommand crs hfuel
  rw [serveTape_run himage, serveSadie_run, hrun]
  exact ⟨delivered_ending replies, delivered_ending replies⟩

/-- Three bytes, of which the first record is asked for twice. -/
theorem download_delivers_three :
    let m := Monitor.start [0x4C, 0x20, 0x61] 1 [(1, .retransmit), (0, .accept), (2, .accept)]
    Delivered [1, 2, 3] [(1, .retransmit), (0, .accept), (2, .accept)] (ServeTape.sendMonitorImage 4 m [1, 2, 3] 0xF000) ∧
      Delivered [1, 2, 3] [(1, .retransmit), (0, .accept), (2, .accept)] (ServeSadie.sendMonitorImage 4 m [1, 2, 3]) :=
  download_delivers [1, 2, 3] (by decide) [0x4C, 0x20, 0x61] ⟨by decide, by decide⟩ 1
    [(1, .retransmit), (0, .accept), (2, .accept)] 4 (by decide)

end Delivery

end S8000.Serial.Download
