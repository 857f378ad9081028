import Mathlib.Data.List.TakeWhile
import MeDiE.Server.LoadArgsSorted

/-!
# The hosts file in `thread_load_sender`

Line `s` of the hosts file is the address of server `s`.  The thread reads the file only
forwards: `current_line` is the number of the line in `id_srv`, and an outer loop over the
entries reads lines until this is the server of the next entry, opens a socket, and lets
an inner loop send all entries for the same server.

Storage, sockets and answers do not fail here, so handling an entry is a packet in the
log of the thread, with the address that its socket was opened to.
-/

namespace MeDiE.Server

variable {ι : Type}

/-! ## Reading lines -/

/-- `max_id_size`. -/
def maxIdSize : Nat := 21

/-- The characters `fgets` reads when it has room for `room` of them, and the rest. -/
def fgetsChars : Nat → List Char → List Char × List Char
  | 0, fd => ([], fd)
  | _ + 1, [] => ([], [])
  | room + 1, c :: fd =>
      if c = '\n' then ([c], fd)
      else (c :: (fgetsChars room fd).1, (fgetsChars room fd).2)

/-- `fgets`, or `none` for `NULL`. -/
def fgets (size : Nat) (fd : List Char) : Option (List Char × List Char) :=
  match fd with
  | [] => none
  | _ :: _ => some (fgetsChars (size - 1) fd)

/-- A file of newline-terminated lines. -/
def fileOf (lines : List (List Char)) : List Char := lines.flatMap fun line => line ++ ['\n']

/-- The lines of a hosts file are short enough for the buffer. -/
def HostLines (lines : List (List Char)) : Prop :=
  ∀ line ∈ lines, '\n' ∉ line ∧ line.length < 20

theorem fgetsChars_line {line fd : List Char} {room : Nat} (hline : '\n' ∉ line)
    (hroom : line.length < room) :
    fgetsChars room (line ++ '\n' :: fd) = (line ++ ['\n'], fd) := by
  induction line generalizing room with
  | nil =>
      obtain ⟨room, rfl⟩ : ∃ k, room = k + 1 := ⟨room - 1, by simp at hroom; omega⟩
      simp [fgetsChars]
  | cons c line ih =>
      rw [List.length_cons] at hroom
      obtain ⟨room, rfl⟩ : ∃ k, room = k + 1 := ⟨room - 1, by omega⟩
      obtain ⟨hc, hline⟩ : ¬ '\n' = c ∧ '\n' ∉ line := by simpa using hline
      have hc' : ¬ c = '\n' := fun h => hc h.symm
      rw [List.cons_append, fgetsChars, if_neg hc', ih hline (by omega)]
      rfl

/-- A line is read as a whole. -/
theorem fgets_fileOf {line : List Char} {lines : List (List Char)} (hline : '\n' ∉ line)
    (hlen : line.length < 20) :
    fgets maxIdSize (fileOf (line :: lines)) = some (line ++ ['\n'], fileOf lines) := by
  have hfile : fileOf (line :: lines) = line ++ '\n' :: fileOf lines := by
    simp [fileOf]
  have hread : fgetsChars (maxIdSize - 1) (line ++ '\n' :: fileOf lines) =
      (line ++ ['\n'], fileOf lines) := fgetsChars_line hline hlen
  rw [hfile]
  cases hfd : line ++ '\n' :: fileOf lines with
  | nil => simp at hfd
  | cons c fd => rw [fgets, ← hfd, hread]

/-- The text before the newline, which the thread overwrites with the end of the string. -/
def chomp (line : List Char) : List Char := line.takeWhile (· ≠ '\n')

theorem chomp_line {line : List Char} (hline : '\n' ∉ line) : chomp (line ++ ['\n']) = line := by
  rw [chomp, List.takeWhile_append_of_pos]
  · simp
  · intro c hc
    have hne : c ≠ '\n' := fun h => hline (h ▸ hc)
    simpa using hne

/-! ## The thread -/

/-- The open file, and the line read last with its number. -/
structure Cursor where
  fd : List Char
  currentLine : Int
  idSrv : List Char

/-- The cursor before the first line is read. -/
def Cursor.start (file : List Char) : Cursor where
  fd := file
  currentLine := -1
  idSrv := []

/-- `while (current_line != server)`.  There is no result at the end of the file, nor
when `fuel` lines are not enough. -/
def seek (server : Int) : Nat → Cursor → Option Cursor
  | 0, _ => none
  | fuel + 1, cursor =>
      if cursor.currentLine = server then some cursor
      else
        match fgets maxIdSize cursor.fd with
        | none => none
        | some (line, fd) =>
            seek server fuel
              { fd := fd
                currentLine := cursor.currentLine + 1
                idSrv := chomp line }

/-- What the thread has done: the sockets it has opened, with the number of the line the
address is from, and the packets it has sent, with the line and the address of the
socket. -/
structure SendLog (ι : Type) where
  opened : List (Int × List Char)
  sent : List (Int × List Char × ι)

/-- The server of an entry of the list.  The thread also reads the one behind the last
entry, where it finds `beyond`. -/
def serverAt (toSend : List (Int × ι)) (beyond : Int) (idx : Nat) : Int :=
  match toSend[idx]? with
  | some x => x.1
  | none => beyond

/-- `while (current_line == servers[to_send_idx])`: the index at the end of the loop. -/
def sendLoop (toSend : List (Int × ι)) (beyond : Int) (cursor : Cursor) :
    Nat → Nat → SendLog ι → Option (Nat × SendLog ι)
  | 0, _, _ => none
  | fuel + 1, idx, log =>
      match toSend[idx]? with
      | none => none
      | some (server, entry) =>
          if cursor.currentLine = server then
            let log := { log with sent := log.sent ++ [(cursor.currentLine, cursor.idSrv, entry)] }
            if serverAt toSend beyond (idx + 1) = cursor.currentLine ∧ idx + 1 < toSend.length
            then sendLoop toSend beyond cursor fuel (idx + 1) log
            else some (idx, log)
          else some (idx, log)

/-- `for (; to_send_idx < to_send->size; to_send_idx++)`. -/
def serversLoop (toSend : List (Int × ι)) (beyond : Int) (lines : Nat) :
    Nat → Nat → Cursor → SendLog ι → Option (SendLog ι)
  | 0, _, _, _ => none
  | fuel + 1, idx, cursor, log =>
      match toSend[idx]? with
      | none => some log
      | some (server, _) =>
          match seek server (lines + 1) cursor with
          | none => none
          | some cursor =>
              let log :=
                { log with opened := log.opened ++ [(cursor.currentLine, cursor.idSrv)] }
              match sendLoop toSend beyond cursor (toSend.length + 1) idx log with
              | none => none
              | some (idx, log) => serversLoop toSend beyond lines fuel (idx + 1) cursor log

/-- `thread_load_sender`.  Every loop gets as much fuel as the list or the file is long;
there is no result if that is not enough, if the end of the file is hit, or if a read
leaves the list. -/
def threadLoadSender (toSend : List (Int × ι)) (beyond : Int) (lines : List (List Char)) :
    Option (SendLog ι) :=
  match sortToSend toSend with
  | none => none
  | some toSend =>
      serversLoop toSend beyond lines.length (toSend.length + 1) 0
        (Cursor.start (fileOf lines)) { opened := [], sent := [] }

/-! ## Reading up to a line -/

/-- `read` lines of the file have been read. -/
structure Cursor.At (lines : List (List Char)) (read : Nat) (cursor : Cursor) : Prop where
  fd_eq : cursor.fd = fileOf (lines.drop read)
  line_eq : cursor.currentLine = (read : Int) - 1
  id_eq : ∀ line, read = line + 1 → lines[line]? = some cursor.idSrv

theorem Cursor.at_start (lines : List (List Char)) :
    (Cursor.start (fileOf lines)).At lines 0 where
  fd_eq := rfl
  line_eq := rfl
  id_eq _ h := by omega

/-- A line that is still to come, and is there, is found. -/
theorem seek_spec {lines : List (List Char)} (hlines : HostLines lines) {server read : Nat}
    {fuel : Nat} {cursor : Cursor} (hcursor : cursor.At lines read) (hread : read ≤ server + 1)
    (hserver : server < lines.length) (hfuel : server + 1 - read < fuel) :
    ∃ cursor', seek server fuel cursor = some cursor' ∧ cursor'.At lines (server + 1) := by
  induction fuel generalizing read cursor with
  | zero => omega
  | succ fuel ih =>
      have hline := hcursor.line_eq
      rw [seek]
      by_cases hfound : read = server + 1
      · subst hfound
        exact ⟨cursor, if_pos (by omega), hcursor⟩
      · rw [if_neg (by omega)]
        have hlt : read < lines.length := by omega
        obtain ⟨hnewline, hlen⟩ := hlines lines[read] (List.getElem_mem hlt)
        have hfile : cursor.fd = fileOf (lines[read] :: lines.drop (read + 1)) := by
          rw [hcursor.fd_eq, List.drop_eq_getElem_cons hlt]
        simp only [hfile, fgets_fileOf hnewline hlen, chomp_line hnewline]
        refine ih ?_ (show read + 1 ≤ server + 1 by omega) (by omega)
        constructor
        · rfl
        · show cursor.currentLine + 1 = _
          omega
        · intro line hread'
          obtain rfl : line = read := by omega
          exact List.getElem?_eq_getElem hlt

/-! ## Sending to one server -/

/-- What is sent for these entries while the cursor is on a line. -/
def sentFrom (cursor : Cursor) (run : List (Int × ι)) : List (Int × List Char × ι) :=
  run.map fun x => (cursor.currentLine, cursor.idSrv, x.2)

/-- The entries for the server of the current line are sent up to the last one in a row. -/
theorem sendLoop_spec {toSend : List (Int × ι)} (beyond : Int) {cursor : Cursor}
    {fuel idx : Nat} {entry : ι} {rest : List (Int × ι)} (hfuel : rest.length < fuel)
    (hdrop : toSend.drop idx = (cursor.currentLine, entry) :: rest) (log : SendLog ι) :
    sendLoop toSend beyond cursor fuel idx log =
      some (idx + (rest.takeWhile (·.1 = cursor.currentLine)).length,
        { log with
          sent := log.sent ++ sentFrom cursor ((cursor.currentLine, entry) ::
            rest.takeWhile (·.1 = cursor.currentLine)) }) := by
  induction fuel generalizing idx entry rest log with
  | zero => omega
  | succ fuel ih =>
      have hget : toSend[idx]? = some (cursor.currentLine, entry) := by
        rw [← List.head?_drop, hdrop, List.head?_cons]
      have hdrop' : toSend.drop (idx + 1) = rest := by
        rw [← List.drop_drop, hdrop, List.drop_succ_cons, List.drop_zero]
      have hlen : toSend.length - (idx + 1) = rest.length := by
        rw [← hdrop', List.length_drop]
      simp only [sendLoop, hget, if_true]
      cases rest with
      | nil =>
          rw [List.length_nil] at hlen
          rw [if_neg (by omega)]
          simp [sentFrom]
      | cons next rest =>
          obtain ⟨server, entry'⟩ := next
          rw [List.length_cons] at hlen hfuel
          have hnext : toSend[idx + 1]? = some (server, entry') := by
            rw [← List.head?_drop, hdrop', List.head?_cons]
          simp only [serverAt, hnext]
          by_cases hsame : server = cursor.currentLine
          · subst hsame
            rw [if_pos ⟨rfl, by omega⟩, ih (by omega) hdrop']
            simp [sentFrom, Nat.add_assoc, Nat.add_comm 1]
          · rw [if_neg fun h => hsame h.1]
            simp [sentFrom, hsame]

/-! ## Sending to all servers -/

/-- The sockets `opened` and the packets `sent` are for the entries `toSend`: a packet for
each, in order, a socket for each server, in increasing order, and both at the address in
the line of the server. -/
structure Covers (lines : List (List Char)) (toSend : List (Int × ι))
    (opened : List (Int × List Char)) (sent : List (Int × List Char × ι)) : Prop where
  sent_eq : sent.map (fun p => (p.1, p.2.2)) = toSend
  sent_addr : ∀ p ∈ sent, lines[p.1.toNat]? = some p.2.1
  opened_lt : (opened.map Prod.fst).Pairwise (· < ·)
  opened_iff : ∀ server, server ∈ opened.map Prod.fst ↔ server ∈ toSend.map Prod.fst
  opened_addr : ∀ o ∈ opened, lines[o.1.toNat]? = some o.2

theorem Covers.nil (lines : List (List Char)) :
    Covers lines ([] : List (Int × ι)) [] [] := by
  constructor <;> simp

/-- The entries for one server, before those for later ones. -/
theorem Covers.group {lines : List (List Char)} {later : List (Int × ι)}
    {opened : List (Int × List Char)} {sent : List (Int × List Char × ι)}
    (h : Covers lines later opened sent) {cursor : Cursor} {run : List (Int × ι)}
    (hne : run ≠ []) (hrun : ∀ x ∈ run, x.1 = cursor.currentLine)
    (haddr : lines[cursor.currentLine.toNat]? = some cursor.idSrv)
    (hlater : ∀ x ∈ later, cursor.currentLine < x.1) :
    Covers lines (run ++ later) ((cursor.currentLine, cursor.idSrv) :: opened)
      (sentFrom cursor run ++ sent) where
  sent_eq := by
    rw [List.map_append, h.sent_eq, sentFrom, List.map_map]
    congr 1
    rw [List.map_congr_left (g := id), List.map_id]
    intro x hx
    exact Prod.ext (hrun x hx).symm rfl
  sent_addr := by
    intro p hp
    rcases List.mem_append.mp hp with hp | hp
    · obtain ⟨x, _, rfl⟩ := List.mem_map.mp hp
      exact haddr
    · exact h.sent_addr p hp
  opened_lt := by
    rw [List.map_cons, List.pairwise_cons]
    refine ⟨?_, h.opened_lt⟩
    intro server hserver
    rw [h.opened_iff, List.mem_map] at hserver
    obtain ⟨x, hx, rfl⟩ := hserver
    exact hlater x hx
  opened_iff := by
    intro server
    rw [List.map_cons, List.mem_cons, h.opened_iff, List.map_append, List.mem_append]
    have hmem : server ∈ run.map Prod.fst ↔ server = cursor.currentLine := by
      constructor
      · intro hserver
        obtain ⟨x, hx, rfl⟩ := List.mem_map.mp hserver
        exact hrun x hx
      · rintro rfl
        obtain ⟨x, hx⟩ := List.exists_mem_of_ne_nil run hne
        exact List.mem_map.mpr ⟨x, hx, hrun x hx⟩
    rw [hmem]
  opened_addr := by
    intro o ho
    rcases List.mem_cons.mp ho with rfl | ho
    · exact haddr
    · exact h.opened_addr o ho

/-- In a sorted list, what comes behind the entries for the first server is for later
ones. -/
theorem lt_of_mem_dropWhile {server : Int} {list : List (Int × ι)}
    (hsorted : list.Pairwise fun x y => x.1 ≤ y.1) (hge : ∀ x ∈ list, server ≤ x.1) :
    ∀ x ∈ list.dropWhile (·.1 = server), server < x.1 := by
  induction list with
  | nil => simp
  | cons y list ih =>
      rw [List.pairwise_cons] at hsorted
      intro x hx
      by_cases hy : y.1 = server
      · rw [List.dropWhile_cons_of_pos (by simpa using hy)] at hx
        exact ih hsorted.2 (fun z hz => hge z (List.mem_cons_of_mem _ hz)) x hx
      · rw [List.dropWhile_cons_of_neg (by simpa using hy)] at hx
        have hlt : server < y.1 := lt_of_le_of_ne (hge y List.mem_cons_self) (Ne.symm hy)
        rcases List.mem_cons.mp hx with rfl | hx
        · exact hlt
        · exact hlt.trans_le (hsorted.1 x hx)

/-- The outer loop, when the lines read so far are of servers before the next one. -/
theorem serversLoop_spec {lines : List (List Char)} (hlines : HostLines lines)
    {toSend : List (Int × ι)} (beyond : Int)
    (hsorted : toSend.Pairwise fun x y => x.1 ≤ y.1)
    (hservers : ∀ x ∈ toSend, 0 ≤ x.1 ∧ x.1 < lines.length) {fuel idx read : Nat}
    (hfuel : (toSend.drop idx).length < fuel) {cursor : Cursor} (hcursor : cursor.At lines read)
    (hahead : ∀ x ∈ toSend.drop idx, (read : Int) ≤ x.1 + 1) (log : SendLog ι) :
    ∃ opened sent, serversLoop toSend beyond lines.length fuel idx cursor log =
        some { opened := log.opened ++ opened, sent := log.sent ++ sent } ∧
      Covers lines (toSend.drop idx) opened sent := by
  induction fuel generalizing idx read cursor log with
  | zero => omega
  | succ fuel ih =>
      cases hdrop : toSend.drop idx with
      | nil =>
          have hget : toSend[idx]? = none := by rw [← List.head?_drop, hdrop, List.head?_nil]
          refine ⟨[], [], ?_, Covers.nil lines⟩
          simp only [serversLoop, hget, List.append_nil]
      | cons x rest =>
          obtain ⟨server, entry⟩ := x
          have hget : toSend[idx]? = some (server, entry) := by
            rw [← List.head?_drop, hdrop, List.head?_cons]
          obtain ⟨hnonneg, hlt⟩ := hservers (server, entry) (List.mem_of_getElem? hget)
          obtain ⟨line, rfl⟩ := Int.eq_ofNat_of_zero_le hnonneg
          have hread := hahead (line, entry) (by rw [hdrop]; exact List.mem_cons_self)
          simp only at hlt hread
          obtain ⟨found, hseek, hfound⟩ :=
            seek_spec hlines hcursor (show read ≤ line + 1 by omega) (by omega)
              (show line + 1 - read < lines.length + 1 by omega)
          have hline : found.currentLine = line := by
            rw [hfound.line_eq]
            omega
          have haddr : lines[found.currentLine.toNat]? = some found.idSrv := by
            rw [hline]
            exact hfound.id_eq line rfl
          rw [← hline] at hdrop
          have hlen : toSend.length - idx = rest.length + 1 := by
            rw [← List.length_drop, hdrop, List.length_cons]
          have hdropRest : toSend.drop (idx + 1) = rest := by
            rw [← List.drop_drop, hdrop, List.drop_succ_cons, List.drop_zero]
          have hsortedDrop : ((found.currentLine, entry) :: rest).Pairwise
              fun x y => x.1 ≤ y.1 := by
            rw [← hdrop]
            exact hsorted.sublist (List.drop_sublist _ _)
          rw [List.pairwise_cons] at hsortedDrop
          -- the entries for this server, and those for later ones
          let run := rest.takeWhile (·.1 = found.currentLine)
          let later := rest.dropWhile (·.1 = found.currentLine)
          have hsplit : run ++ later = rest := List.takeWhile_append_dropWhile
          have hlater : ∀ x ∈ later, found.currentLine < x.1 :=
            lt_of_mem_dropWhile hsortedDrop.2 hsortedDrop.1
          have hdropLater : toSend.drop (idx + run.length + 1) = later := by
            rw [show idx + run.length + 1 = idx + 1 + run.length by omega, ← List.drop_drop,
              hdropRest, ← hsplit, List.drop_left]
          have hlaterLen : later.length ≤ rest.length := by
            rw [← hsplit, List.length_append]
            omega
          have hsend := sendLoop_spec beyond (show rest.length < toSend.length + 1 by omega)
            hdrop { log with opened := log.opened ++ [(found.currentLine, found.idSrv)] }
          have hfuel' : (toSend.drop (idx + run.length + 1)).length < fuel := by
            rw [hdropLater]
            rw [hdrop, List.length_cons] at hfuel
            omega
          obtain ⟨opened, sent, hloop, hcovers⟩ := ih hfuel' hfound
            (by
              rw [hdropLater]
              intro x hx
              have hx := hlater x hx
              omega)
            { opened := log.opened ++ [(found.currentLine, found.idSrv)]
              sent := log.sent ++ sentFrom found ((found.currentLine, entry) :: run) }
          rw [hdropLater] at hcovers
          refine ⟨(found.currentLine, found.idSrv) :: opened,
            sentFrom found ((found.currentLine, entry) :: run) ++ sent, ?_, ?_⟩
          · simp only [serversLoop, hget, hseek, hsend]
            rw [hloop, List.append_assoc, List.append_assoc, List.singleton_append]
          · have hgroup := hcovers.group (List.cons_ne_nil (found.currentLine, entry) run)
              (by
                intro x hx
                rcases List.mem_cons.mp hx with rfl | hx
                · rfl
                · simpa using List.mem_takeWhile_imp hx)
              haddr hlater
            rw [List.cons_append, hsplit] at hgroup
            rw [hline] at hgroup ⊢
            exact hgroup

/-- The thread sends the entries in the order of the sorted list. -/
theorem threadLoadSender_covers {toSend : List (Int × ι)} (beyond : Int)
    {lines : List (List Char)} (hlines : HostLines lines)
    (hservers : ∀ x ∈ toSend, 0 ≤ x.1 ∧ x.1 < lines.length) :
    ∃ list log, sortToSend toSend = some list ∧
      threadLoadSender toSend beyond lines = some log ∧
      Covers lines list log.opened log.sent := by
  obtain ⟨list, hsort, hsorted⟩ := sortToSend_sorted toSend
  have hservers' : ∀ x ∈ list, 0 ≤ x.1 ∧ x.1 < lines.length :=
    fun x hx => hservers x ((sortToSend_perm hsort).mem_iff.mp hx)
  have hfuel : (list.drop 0).length < list.length + 1 := by
    rw [List.drop_zero]
    exact Nat.lt_succ_self _
  obtain ⟨opened, sent, hloop, hcovers⟩ := serversLoop_spec hlines beyond hsorted hservers'
    hfuel (Cursor.at_start lines)
    (by
      intro x hx
      have hx := (hservers' x (List.mem_of_mem_drop hx)).1
      omega)
    { opened := [], sent := [] }
  rw [List.drop_zero] at hcovers
  refine ⟨list, { opened := opened, sent := sent }, hsort, ?_, hcovers⟩
  rw [threadLoadSender, hsort]
  exact hloop

/-- Let the lines of the file be short enough for the buffer, and let every planned entry be
for a server that has a line.  Then every entry is sent once, to the address in the line of
its server, over one socket for each server, and no loop runs on or hits the end of the
file. -/
theorem sender_addresses_plan (toSend : List (Int × ι)) (beyond : Int)
    (lines : List (List Char)) (hlines : HostLines lines)
    (hservers : ∀ x ∈ toSend, 0 ≤ x.1 ∧ x.1 < lines.length) :
    ∃ log, threadLoadSender toSend beyond lines = some log ∧
      log.sent.length = toSend.length ∧
      (log.sent.map fun p => (p.1, p.2.2)).Perm toSend ∧
      (∀ p ∈ log.sent, lines[p.1.toNat]? = some p.2.1) ∧
      (log.opened.map Prod.fst).Nodup ∧
      (∀ server, server ∈ log.opened.map Prod.fst ↔ server ∈ toSend.map Prod.fst) ∧
      ∀ o ∈ log.opened, lines[o.1.toNat]? = some o.2 := by
  obtain ⟨list, log, hsort, hlog, hcovers⟩ := threadLoadSender_covers beyond hlines hservers
  have hperm := sortToSend_perm hsort
  refine ⟨log, hlog, ?_, ?_, hcovers.sent_addr, ?_, ?_, hcovers.opened_addr⟩
  · rw [← hperm.length_eq, ← hcovers.sent_eq, List.length_map]
  · rw [hcovers.sent_eq]
    exact hperm
  · exact hcovers.opened_lt.imp fun h => ne_of_lt h
  · intro server
    rw [hcovers.opened_iff]
    exact (hperm.map Prod.fst).mem_iff

/-- Three entries for the servers 2 and 0 of three. -/
theorem sender_addresses_plan_three :
    ∃ log, threadLoadSender [(2, 'a'), (0, 'b'), (2, 'c')] 0 [['v', '0'], ['v', '1'], ['v', '2']] =
        some log ∧
      log.sent.length = 3 ∧
      (log.sent.map fun p => (p.1, p.2.2)).Perm [(2, 'a'), (0, 'b'), (2, 'c')] ∧
      (∀ p ∈ log.sent, [['v', '0'], ['v', '1'], ['v', '2']][p.1.toNat]? = some p.2.1) ∧
      (log.opened.map Prod.fst).Nodup ∧
      (∀ server, server ∈ log.opened.map Prod.fst ↔
        server ∈ [(2, 'a'), (0, 'b'), (2, 'c')].map Prod.fst) ∧
      ∀ o ∈ log.opened, [['v', '0'], ['v', '1'], ['v', '2']][o.1.toNat]? = some o.2 :=
  sender_addresses_plan [(2, 'a'), (0, 'b'), (2, 'c')] 0 [['v', '0'], ['v', '1'], ['v', '2']]
    (by unfold HostLines; decide) (by decide)

end MeDiE.Server
