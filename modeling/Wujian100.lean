import Wujian100.Core.Boot.Flash
import Wujian100.Core.Boot.Main
import Wujian100.Core.Boot.Sha2
import Wujian100.Core.Boot.Verify
import Wujian100.Core.Bytes
import Wujian100.Core.Driver.Calendar
import Wujian100.Core.Driver.Delay
import Wujian100.Core.Driver.Dmac
import Wujian100.Core.Driver.OipTimer
import Wujian100.Core.Driver.Pwm
import Wujian100.Core.Driver.Rtc
import Wujian100.Core.Driver.UsiIic
import Wujian100.Core.Driver.UsiSpi
import Wujian100.Core.Driver.UsiUsart
import Wujian100.Core.Libs.ClockGettime
import Wujian100.Core.Libs.Ringbuffer
import Wujian100.Core.Mbox.App
import Wujian100.Core.Mbox.Driver
import Wujian100.Core.Rhino.BufQueue
import Wujian100.Core.Rhino.Calls
import Wujian100.Core.Rhino.Critical
import Wujian100.Core.Rhino.CsiSem
import Wujian100.Core.Rhino.CsiTimer
import Wujian100.Core.Rhino.Kernel
import Wujian100.Core.Rhino.Kfifo
import Wujian100.Core.Rhino.KobjList
import Wujian100.Core.Rhino.Mm
import Wujian100.Core.Rhino.MmBlk
import Wujian100.Core.Rhino.MmLock
import Wujian100.Core.Rhino.MmRegions
import Wujian100.Core.Rhino.Msgq
import Wujian100.Core.Rhino.Ringbuf
import Wujian100.Core.Rhino.Runqueue
import Wujian100.Core.Rhino.Status
import Wujian100.Core.Rhino.Ticks
import Wujian100.Core.Rhino.Timer
import Wujian100.Core.Rhino.Workqueue
import Wujian100.Core.Rsa.Accelerator
import Wujian100.Core.Rsa.Exponent
import Wujian100.Core.Rsa.Fifo
import Wujian100.Core.Rsa.Mul128
import Wujian100.Core.Rsa.Multiplier
import Wujian100.Core.Rsa.R2mm
import Wujian100.Core.Rsa.Radix2
import Wujian100.Core.Rsa.Slave
import Wujian100.Core.Tools.MkFlash
import Wujian100.Core.Tools.Srec2vmem
import Wujian100.Library.Allocator
import Wujian100.Library.Blocks
import Wujian100.Library.Bounded
import Wujian100.Library.Chain
import Wujian100.Library.Circle
import Wujian100.Library.Countdown
import Wujian100.Library.Digits
import Wujian100.Library.Dlist
import Wujian100.Library.Halves
import Wujian100.Library.Inheritance
import Wujian100.Library.Klist
import Wujian100.Library.Montgomery
import Wujian100.Library.Moore
import Wujian100.Library.Padding
import Wujian100.Library.Pipeline
import Wujian100.Library.Ring
import Wujian100.Library.Run
import Wujian100.Library.Slot
import Wujian100.Library.Writes
import Wujian100.Theory.Boot.Flash
import Wujian100.Theory.Boot.Main
import Wujian100.Theory.Boot.Sha2
import Wujian100.Theory.Boot.Verify
import Wujian100.Theory.Driver.Calendar
import Wujian100.Theory.Driver.Delay
import Wujian100.Theory.Driver.DmaChannels
import Wujian100.Theory.Driver.DmaIrq
import Wujian100.Theory.Driver.DmaStart
import Wujian100.Theory.Driver.IicTransfers
import Wujian100.Theory.Driver.OipTimer
import Wujian100.Theory.Driver.PwmConfig
import Wujian100.Theory.Driver.PwmIrq
import Wujian100.Theory.Driver.PwmTimer
import Wujian100.Theory.Driver.Rtc
import Wujian100.Theory.Driver.UsiIic
import Wujian100.Theory.Driver.UsiSpi
import Wujian100.Theory.Driver.UsiUsart
import Wujian100.Theory.Libs.ClockGettime
import Wujian100.Theory.Libs.Ringbuffer
import Wujian100.Theory.Mbox.App
import Wujian100.Theory.Mbox.Channel
import Wujian100.Theory.Mbox.Startup
import Wujian100.Theory.Mbox.StopAndWait
import Wujian100.Theory.Mbox.Transport
import Wujian100.Theory.Rhino.Aside
import Wujian100.Theory.Rhino.BufQueue
import Wujian100.Theory.Rhino.Chase
import Wujian100.Theory.Rhino.CsiSem
import Wujian100.Theory.Rhino.CsiTimer
import Wujian100.Theory.Rhino.Effect
import Wujian100.Theory.Rhino.Expiry
import Wujian100.Theory.Rhino.Handover
import Wujian100.Theory.Rhino.Inherit
import Wujian100.Theory.Rhino.Kernel
import Wujian100.Theory.Rhino.Kfifo
import Wujian100.Theory.Rhino.KobjList
import Wujian100.Theory.Rhino.Ledger
import Wujian100.Theory.Rhino.MmAdded
import Wujian100.Theory.Rhino.MmBlk
import Wujian100.Theory.Rhino.MmCalls
import Wujian100.Theory.Rhino.MmChain
import Wujian100.Theory.Rhino.MmClass
import Wujian100.Theory.Rhino.MmHeap
import Wujian100.Theory.Rhino.MmHole
import Wujian100.Theory.Rhino.MmIndex
import Wujian100.Theory.Rhino.MmInit
import Wujian100.Theory.Rhino.MmJoin
import Wujian100.Theory.Rhino.MmLock
import Wujian100.Theory.Rhino.MmNumbers
import Wujian100.Theory.Rhino.MmRegions
import Wujian100.Theory.Rhino.MmRuns
import Wujian100.Theory.Rhino.MmScan
import Wujian100.Theory.Rhino.MmUsers
import Wujian100.Theory.Rhino.MmView
import Wujian100.Theory.Rhino.MmWraps
import Wujian100.Theory.Rhino.Msgq
import Wujian100.Theory.Rhino.Owners
import Wujian100.Theory.Rhino.Preemption
import Wujian100.Theory.Rhino.Priority
import Wujian100.Theory.Rhino.Reach
import Wujian100.Theory.Rhino.Restart
import Wujian100.Theory.Rhino.Ringbuf
import Wujian100.Theory.Rhino.Runqueue
import Wujian100.Theory.Rhino.Sound
import Wujian100.Theory.Rhino.Ticks
import Wujian100.Theory.Rhino.Timer
import Wujian100.Theory.Rhino.TimerDel
import Wujian100.Theory.Rhino.TimerLife
import Wujian100.Theory.Rhino.Undone
import Wujian100.Theory.Rhino.WorkCancel
import Wujian100.Theory.Rhino.WorkDue
import Wujian100.Theory.Rhino.Workqueue
import Wujian100.Theory.Rsa.Accelerator
import Wujian100.Theory.Rsa.Bounds
import Wujian100.Theory.Rsa.Capture
import Wujian100.Theory.Rsa.Exponent
import Wujian100.Theory.Rsa.Fifo
import Wujian100.Theory.Rsa.Mul128
import Wujian100.Theory.Rsa.Multiplier
import Wujian100.Theory.Rsa.Power
import Wujian100.Theory.Rsa.Product
import Wujian100.Theory.Rsa.R2mm
import Wujian100.Theory.Rsa.Radix2
import Wujian100.Theory.Rsa.Rounds
import Wujian100.Theory.Rsa.Session
import Wujian100.Theory.Rsa.Slave
import Wujian100.Theory.Rsa.Subtract
import Wujian100.Theory.Tools.MkFlash
import Wujian100.Theory.Tools.Srec2vmem
import Wujian100.Theory.Tools.VmemImage
