import SliceProfiler.Cli.Commands
import SliceProfiler.Collector.Theorems
import SliceProfiler.Host.Theorems
