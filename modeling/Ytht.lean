import Ytht.Lib.Bytes
import Ytht.Lib.Recency
import Ytht.Boardrc.Record
import Ytht.Boardrc.Codec
import Ytht.Boardrc.Store
import Ytht.Boardrc.Marks
import Ytht.Boardrc.Unread
import Ytht.Boardrc.Update
import Ytht.Boardrc.Info
import Ytht.Lib.Tally
import Ytht.Lib.Chain
import Ytht.Ucache.Getuser
import Ytht.Ucache.Hash
import Ytht.Ucache.Table
import Ytht.Ucache.Passwd
import Ytht.Ucache.Register
import Ytht.Ucache.Namearray
import Ytht.Article.Dir
import Ytht.Article.Delete
import Ytht.Lib.Runs
import Ytht.Ythtlib.Stdio
import Ytht.Pop3.Session
import Ytht.Pop3.Maildrop
import Ytht.Article.Range
import Ytht.Article.Records
import Ytht.Article.Window
import Ytht.Article.Change
import Ytht.Article.Extra
import Ytht.Utmp.Table
import Ytht.Utmp.Slots
import Ytht.Chessd.Output
import Ytht.Lib.Roster
import Ytht.Chessd.Rooms
import Ytht.Lib.Frames
import Ytht.Chessd.Input
import Ytht.Lib.Feed
import Ytht.Lib.File
import Ytht.Lib.Locks
import Ytht.Lib.Gbk
import Ytht.Lib.Base64
import Ytht.Ythtlib.Convcode
import Ytht.Ythtlib.Base64
import Ytht.Nju09.Hsprintf
import Ytht.Nju09.Blog
import Ytht.Lib.Bits
import Ytht.Vote.Ballot
import Ytht.Lib.Keyed
import Ytht.Vote.Flag
import Ytht.Lib.Drain
import Ytht.Attach.Append
import Ytht.Ythtlib.Itoa
import Ytht.Attach.Conn
import Ytht.Attach.Serve
import Ytht.Mail.Quota
import Ytht.Msg.Msgbox
import Ytht.Msg.Translate
import Ytht.Msg.Unread
import Ytht.Lib.Dll
import Ytht.Ythtlib.Strlib
import Ytht.Edit.Measure
import Ytht.Edit.Buffer
import Ytht.Edit.Keys
import Ytht.Edit.Cursor
import Ytht.Edit.Article
import Ytht.Edit.Commands
import Ytht.Edit.Text
import Ytht.Lib.Groups
import Ytht.Chessd.Play
import Ytht.Chessd.Five
import Ytht.Chessd.Cchess
import Ytht.Chessd.Go
import Ytht.Chessd.Handlers
import Ytht.Ythtlib.Strop
import Ytht.Ythtlib.Ansi
import Ytht.Nju09.Session
import Ytht.Attach.Insert
import Ytht.Lib.Exchange
import Ytht.Moneycenter.Ranking
import Ytht.Moneycenter.Top
import Ytht.Lib.Ledger
import Ytht.Moneycenter.Shares
import Ytht.Moneycenter.Stock
import Ytht.Moneycenter.Till
import Ytht.Moneycenter.Bank
import Ytht.Moneycenter.Casino
import Ytht.Moneycenter.Money
import Ytht.Moneycenter.Lottery
import Ytht.Moneycenter.Prize
import Ytht.Nju09.Formdata
import Ytht.Nju09.Friends
import Ytht.Nju09.Multipart
import Ytht.Lib.Transfer
import Ytht.Article.Backnumber
import Ytht.Article.Regular
import Ytht.Menu.Namecomplete
import Ytht.Menu.Select
import Ytht.Deny.Execution
import Ytht.Deny.Prison
import Ytht.Deny.Users
import Ytht.Nju09.Userinit
import Ytht.Lib.Literal
import Ytht.Ythtlib.Htmlfunc
import Ytht.Lib.Attlist
import Ytht.Localutl.Htmlfilter
import Ytht.Ythtlib.Fileop
import Ytht.Lib.Journal
import Ytht.Chessd.History
import Ytht.Attach.Filter
import Ytht.Lib.Walks
import Ytht.Boardrc.Walk
import Ytht.Moneycenter.Ticket
import Ytht.Moneycenter.Trade
import Ytht.Moneycenter.Floor
import Ytht.Lib.Places
import Ytht.Utmp.Uindex
import Ytht.Ythtlib.Inet
import Ytht.Nju09.Login
import Ytht.Lib.Matches
import Ytht.Vote.Untrust
import Ytht.Ucache.Regform
import Ytht.Vote.Stroll
import Ytht.Localutl.Attributes
import Ytht.Localutl.Bbslogd
import Ytht.Games.Tetris
import Ytht.Lib.Replay
import Ytht.Games.Worker
import Ytht.Lib.Flood
import Ytht.Games.Winmine
import Ytht.Lib.Msgq
import Ytht.Localutl.Bbsevad
import Ytht.Lib.Marks
import Ytht.Nju09.Ubb
import Ytht.Nju09.Bbsedit
import Ytht.Lib.Vt
import Ytht.Screen.Picture
import Ytht.Screen.Cursor
import Ytht.Screen.Refresh
import Ytht.Screen.Outns
import Ytht.Screen.Session
import Ytht.Screen.Bounds
import Ytht.Screen.Outns
import Ytht.Lib.Window
import Ytht.Pager.Measure
import Ytht.Pager.Lines
import Ytht.Pager.Ring
import Ytht.Lib.Skip
import Ytht.Ythtlib.Mgrep
import Ytht.Attach.Uucode
